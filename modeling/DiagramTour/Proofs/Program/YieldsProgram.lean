import DiagramTour.Proofs.Program.VerbatimBlock
import DiagramTour.Proofs.Program.Version

/-!
# What reading a program yields

Declarations are read by their first word, and only a deck holds other declarations.  Where nothing
is wrong nothing stands beside a deck that comes first.
-/

namespace DiagramTour

open Cursor (Onward)

variable {c : Cursor} {w : String}

/-! ## Well-formed programs -/

inductive Item.WellFormed : Item → Prop where
  | deck {items : List Item} {span : Span} :
      (∀ i ∈ items, WellFormed i) → WellFormed (.deck items span)
  | diagram {d : Diagram} : d.WellFormed → WellFormed (.diagram d)
  | runtime {r : Runtime} : (∀ s ∈ r.sections, s.WellFormed) → WellFormed (.runtime r)
  | selectors {s : Selectors} : WellFormed (.selectors s)
  | styles {s : Styles} : (∀ e ∈ s.entries, e.value.WellFormed) → WellFormed (.styles s)
  | define {d : Definition} : d.value.WellFormed → WellFormed (.define d)
  | scene {s : Scene} : (∀ t ∈ s.steps, t.WellFormed) → WellFormed (.scene s)
  | binding {b : Binding} : b.WellFormed → WellFormed (.binding b)
  | plugin {p : Plugin} : p.WellFormed → WellFormed (.plugin p)
  | metadata {m : Metadata} : m.WellFormed → WellFormed (.metadata m)
  | unknown {u : UnknownBlock} : u.WellFormed → WellFormed (.unknown u)

/-- Whether the declaration is a deck. -/
def Item.isDeck : Item → Bool
  | deck _ _ => true
  | _ => false

/-- What stands beside a deck that comes first. -/
def DeckAlone (items : List Item) : Prop :=
  ∀ i rest, items = i :: rest → i.isDeck = true → rest = []

structure Program.WellFormed (p : Program) : Prop where
  version : p.version.WellFormed
  items : ∀ i ∈ p.items, i.WellFormed
  deck : DeckAlone p.items

/-! ## Declarations -/

namespace Parse

theorem itemOfWord_of_not_mem (h : w ∉ itemWords) :
    itemOfWord w = .unknown <$> unknownBlock := by
  unfold itemOfWord
  split <;> first | rfl | exact absurd (by decide) h

/-- A declaration of a known kind, decks apart. -/
theorem Yields.itemOfWord (h : w ∈ itemWords) (hdeck : w ≠ "deck") :
    (itemOfWord w).Yields Item.WellFormed := by
  unfold Parse.itemOfWord
  split
  · exact map (metadata.imp fun _ => .metadata)
  · exact bind definition fun d => bind (eatPunct ";") fun _ => pure fun _ h => .define h
  · exact map (plugin.imp fun _ => .plugin)
  · exact map (diagram.imp fun _ => .diagram)
  · exact map (runtime.imp fun _ => .runtime)
  · exact map (selectors.imp fun _ _ => .selectors)
  · exact map (styles.imp fun _ => .styles)
  · exact map (scene.imp fun _ => .scene)
  · exact map (binding.imp fun _ => .binding)
  · simp_all [itemWords]

end Parse

theorem Parse.isDeck_itemOfWord (w : String) (c : Cursor) :
    (itemOfWord w c).value.isDeck = false := by
  fun_cases itemOfWord w <;> rfl

/-- The words that open a declaration of a known kind are reserved. -/
theorem wordLexeme_of_mem_itemWords : ∀ w ∈ itemWords, wordLexeme w = .keyword := by
  simp only [itemWords, List.forall_mem_cons]
  exact ⟨rfl, rfl, rfl, rfl, rfl, rfl, rfl, rfl, rfl, rfl, by simp⟩

/-- A word that is not reserved opens no declaration of a known kind. -/
theorem not_mem_itemWords (h : wordLexeme w = .identifier) : w ∉ itemWords := by
  intro hmem
  rw [wordLexeme_of_mem_itemWords w hmem] at h
  cases h

theorem Cursor.Genuine.not_mem_itemWords (h : c.Genuine) (hlex : c.peek.lexeme = .identifier) :
    c.peek.image ∉ itemWords := by
  obtain ⟨-, hword⟩ := h.word (by simp [Token.isWord, hlex])
  exact DiagramTour.not_mem_itemWords (hword.trans hlex)

/-- A declaration of an unknown kind. -/
theorem Parse.yields_unknownItem (hword : c.peek.isWord = true)
    (hother : c.Genuine → c.peek.image ∉ itemWords) :
    ((unknownBlock c).map fun u => some (Item.unknown u)).Yields
      fun o => ∀ i, o = some i → i.WellFormed := by
  have hblock := unknownBlock_yields hword
  refine ⟨hblock.onward, fun hgen hok i hi => ?_⟩
  obtain ⟨hname, hspelled, hraw⟩ := hblock.value hgen hok
  cases hi
  exact .unknown ⟨hspelled, hname ▸ hother hgen, hraw⟩

namespace Cursor

theorem yields_item (c : Cursor) : c.item.Yields fun o => ∀ i, o = some i → i.WellFormed := by
  induction hn : c.size using Nat.strongRecOn generalizing c with
  | _ n ih =>
    rw [item]
    split
    · rename_i h
      have hlt := size_advance_lt (atEnd_eq_false_of_atKeyword h)
      have hinner (d : Cursor) (hd : d.size < c.advance.size) :
          d.item.Yields fun o => ∀ i, o = some i → i.WellFormed := ih d.size (by omega) d rfl
      have hblock := yields_block "a deck declaration" hinner
      refine ⟨(Onward.advance c).trans hblock.onward, fun hgen hok i hi => ?_⟩
      cases hi
      exact .deck (hblock.value hgen.advance hok)
    · rename_i hdeck
      split
      · rename_i hlex
        have hword : c.peek.isWord = true := by simp [Token.isWord, hlex]
        by_cases hmem : c.peek.image ∈ itemWords
        · refine Parsed.Yields.map ((Parse.Yields.itemOfWord hmem ?_ c).imp ?_)
          · rintro heq
            exact hdeck (by simp [atKeyword, Token.isKeyword, hlex, heq])
          · rintro i hi _ ⟨⟩
            exact hi
        · rw [Parse.itemOfWord_of_not_mem hmem]
          exact Parse.yields_unknownItem hword fun _ => hmem
      · rename_i hlex
        exact Parse.yields_unknownItem (by simp [Token.isWord, hlex])
          fun hgen => hgen.not_mem_itemWords hlex
      · exact .here (by simp)

/-- A deck is read where its word comes next, and only there. -/
theorem isDeck_of_item {i : Item} (h : c.item.value = some i) : i.isDeck = c.atKeyword "deck" := by
  rw [item] at h
  split at h
  · rename_i hdeck
    cases h
    exact hdeck.symm
  · rename_i hdeck
    rw [Bool.eq_false_iff.2 hdeck]
    split at h
    · cases h
      exact Parse.isDeck_itemOfWord _ c
    · cases h
      rfl
    · cases h

/-- What is known of declarations that are read one after the other. -/
structure ItemsRead (first afterDeck : Bool) (is : List Item) : Prop where
  items : ∀ i ∈ is, i.WellFormed
  none : afterDeck = true → is = []
  deck : first = true → DeckAlone is

/-- The cursor before a declaration, which is reported behind a deck that comes first. -/
def beforeItem (afterDeck : Bool) (c : Cursor) : Cursor :=
  if afterDeck then c.unexpected "end of input after `deck` block" else c

theorem onward_beforeItem (afterDeck : Bool) (c : Cursor) : Onward c (c.beforeItem afterDeck) := by
  unfold beforeItem
  split
  · exact .unexpected c _
  · exact .refl c

theorem size_beforeItem (afterDeck : Bool) (c : Cursor) : (c.beforeItem afterDeck).size = c.size := by
  unfold beforeItem
  split <;> simp

/-- The declarations behind the next one. -/
def itemsBehind (first afterDeck : Bool) (c : Cursor) :
    Parsed (c.afterTurn (c.beforeItem afterDeck).item.next "a declaration") (List Item) :=
  items (first && (c.beforeItem afterDeck).item.value.isNone)
    (first && (c.beforeItem afterDeck).atKeyword "deck")
    (c.afterTurn (c.beforeItem afterDeck).item.next "a declaration")

theorem items_of_going (first afterDeck : Bool) (h : c.atEnd = false) :
    (items first afterDeck c).value =
        (c.beforeItem afterDeck).item.value.toList ++ (itemsBehind first afterDeck c).value ∧
      (items first afterDeck c).next = (itemsBehind first afterDeck c).next := by
  rw [items, dif_neg (by simp [h])]
  exact ⟨rfl, rfl⟩

theorem yields_items (first afterDeck : Bool) (c : Cursor) :
    (items first afterDeck c).Yields (ItemsRead first afterDeck) := by
  induction hn : c.size using Nat.strongRecOn generalizing first afterDeck c with
  | _ n ih =>
    cases hend : c.atEnd with
    | true =>
      rw [items, dif_pos hend]
      exact .here ⟨by simp, fun _ => rfl, fun _ _ _ h => by cases h⟩
    | false =>
      obtain ⟨hvalue, hnext⟩ := items_of_going first afterDeck hend
      have hturn := yields_item (c.beforeItem afterDeck)
      have hbefore := onward_beforeItem afterDeck c
      have hafter := (hbefore.trans hturn.onward).afterTurn "a declaration"
      have hlt := size_afterTurn_lt hend
        (Nat.le_trans (c.beforeItem afterDeck).item.le (Nat.le_of_eq (size_beforeItem afterDeck c)))
        "a declaration"
      have htail : (itemsBehind first afterDeck c).Yields _ := ih _ (hn ▸ hlt) _ _ _ rfl
      refine ⟨hnext ▸ hafter.trans htail.onward, fun hgen hok => ?_⟩
      rw [hnext] at hok
      have hmid : ¬(c.beforeItem afterDeck).item.next.Failed :=
        fun h => hok (htail.onward.failed (h.afterTurn _))
      have hitem := hturn.value (hbefore.genuine hgen) hmid
      obtain ⟨hitems, hnone, hdeck⟩ := htail.value (hafter.genuine hgen) hok
      have hstray : afterDeck ≠ true := by
        rintro rfl
        exact hmid (hturn.onward.failed (failed_unexpected c _))
      rw [hvalue]
      cases hfirst : (c.beforeItem afterDeck).item.value with
      | none =>
        exact ⟨hitems, fun h => absurd h hstray, fun h => hdeck (by rw [h, hfirst]; rfl)⟩
      | some i =>
        refine ⟨List.forall_mem_cons.2 ⟨hitem i hfirst, hitems⟩, fun h => absurd h hstray, ?_⟩
        rintro hf _ _ ⟨⟩ hi
        exact hnone (by rw [hf, ← isDeck_of_item hfirst, hi]; rfl)

end Cursor

/-! ## Programs -/

theorem Parse.Yields.program? : Parse.program?.Yields fun o => ∀ p, o = some p → p.WellFormed := by
  refine look fun start c => .look ?_
  split
  · refine (bind (expectKeyword _) fun _ => bind version fun v =>
      bind (Cursor.yields_items true false) fun is => look fun _ => pure ?_) c
    rintro hitems hversion - p ⟨⟩
    exact ⟨hversion, hitems.items, hitems.deck rfl⟩
  · exact (bind (expectKeyword _) fun _ => pure (by simp)) c

end DiagramTour
