import DiagramTour.Proofs.Program.Outset
import DiagramTour.Proofs.Program.YieldsProgram

/-!
# Reading printed programs

Every declaration is read by the word that its text begins with.  Declarations that are clear are
read one after the other, each up to the word of the next one, decks within decks.
-/

namespace DiagramTour

variable {c : Cursor} {mid text rest : List Char} {w : String} {words : List String}

/-! ## The word of a declaration -/

/-- The word that the text of a declaration begins with. -/
def Item.word : Item → String
  | deck _ _ => "deck"
  | diagram _ => "diagram"
  | runtime _ => "runtime"
  | selectors _ => "selectors"
  | styles _ => "styles"
  | define _ => "let"
  | scene _ => "scene"
  | binding _ => "binding"
  | plugin _ => "use"
  | metadata _ => "meta"
  | unknown u => u.name

theorem Item.opensWith (i : Item) (depth : Nat) (mid : List Char) :
    OpensWith i.word ((i.print depth).toList ++ mid) := by
  cases i with
  | deck items span => exact opensWith_block depth _ (.inl rfl) mid
  | diagram d =>
    rw [print, Parse.toList_print_diagram]
    exact opensWith_header depth d.name _ mid
  | runtime r => exact opensWith_block depth _ (.inl rfl) mid
  | selectors s => exact opensWith_block depth _ (.inl rfl) mid
  | styles s => exact opensWith_line (w := "styles") depth ⟨_, by simp; rfl⟩ mid
  | define d => exact opensWith_line (w := "let") depth ⟨_, by simp [Definition.print]; rfl⟩ mid
  | scene s => exact opensWith_header depth s.name _ mid
  | binding b => exact opensWith_header depth b.name _ mid
  | plugin p => exact opensWith_line (w := "use") depth ⟨_, by simp; rfl⟩ mid
  | metadata m => exact opensWith_line (w := "meta") depth ⟨_, by simp [Metadata.print]; rfl⟩ mid
  | unknown u =>
    rw [toList_print_unknown]
    refine ⟨_, _, rfl, ?_⟩
    split
    · exact fenced_lineFeed mid
    · exact fenced_space _

theorem Item.WellFormed.word {i : Item} (h : i.WellFormed) : Word i.word := by
  have hknown : ∀ w ∈ itemWords, IsWord w.toList := by decide
  have hitem {w : String} (hw : w ∈ itemWords) : Word w :=
    ⟨hknown w hw, .inl (wordLexeme_of_mem_itemWords w hw)⟩
  cases h with
  | unknown h => exact h.name
  | _ => exact hitem (by simp [Item.word, itemWords])

/-- The next token is the word. -/
theorem OpensWith.coming {Q : Token → Prop} (h : OpensWith w text) (hw : IsWord w.toList)
    (hQ : ∀ span, Q ⟨wordLexeme w, w, span⟩) : Coming text Q := by
  obtain ⟨n, cs, rfl, hcs⟩ := h
  exact (Coming.word hw hcs hQ).indent n

theorem OpensWith.nextItem (h : OpensWith w text) (hw : Word w) : NextItem text :=
  h.coming hw.1 fun _ => .inl (hw.isWord_lexeme rfl)

theorem OpensWith.spared (h : OpensWith w text) (hw : Word w) (hnot : w ∉ words) :
    Spared words text := by
  refine h.coming hw.1 fun span v hv => ?_
  unfold Token.isKeyword
  dsimp only
  split
  · simpa using fun heq : w = v => hnot (heq ▸ hv)
  · rfl

/-- What a declaration does not absorb begins with no word that would go on with it. -/
theorem Item.word_not_mem_openWords {i next : Item} (h : i.absorbs next = false) :
    next.word ∉ i.openWords := by
  cases i with
  | define d =>
    cases next with
    | unknown u => simpa [absorbs, openWords, word] using h
    | _ => simp [openWords, word]
  | plugin p =>
    by_cases hopen : (p.localName.isNone && p.options.isNone) = true
    · cases next with
      | unknown u => simpa [absorbs, openWords, word, hopen] using h
      | _ => simp [openWords, word, hopen]
    · simp [openWords, hopen]
  | _ => simp [openWords]

/-! ## Single declarations -/

namespace Cursor

/-- A declaration other than a deck is read by its word. -/
theorem item_of_word (hw : Word w) (hdeck : w ≠ "deck") (hlex : c.peek.lexeme = wordLexeme w)
    (himage : c.peek.image = w) : c.item = (Parse.itemOfWord w c).map some := by
  have hno : ¬c.atKeyword "deck" = true := by
    unfold atKeyword Token.isKeyword
    split <;> simp [himage, hdeck]
  rw [item, dif_neg hno]
  rcases hw.2 with hkey | hident
  · rw [hlex, hkey, himage]
  · rw [hlex, hident, Parse.itemOfWord_of_not_mem (not_mem_itemWords hident)]
    rfl

end Cursor

/-- A declaration reads its word at least. -/
theorem Parse.size_itemOfWord_lt (hgoing : c.atEnd = false)
    (hat : w ∈ itemWords → c.atKeyword w = true) : (itemOfWord w c).next.size < c.size := by
  have hunknown : (unknownBlock c).next.size < c.size := by
    rw [(unknownBlock_eq c).2.2]
    exact Nat.lt_of_le_of_lt (blockBody c).le (Cursor.size_advance_lt hgoing)
  unfold itemOfWord
  split
  · exact size_map_lt (size_declared_lt (hat (by decide)))
  · exact size_bind_lt (size_declared_lt (hat (by decide)))
  · exact size_map_lt (size_declared_lt (hat (by decide)))
  · exact size_map_lt (size_declared_lt (hat (by decide)))
  · exact size_map_lt (size_declared_lt (hat (by decide)))
  · exact size_map_lt (size_declared_lt (hat (by decide)))
  · exact size_map_lt (size_declared_lt (hat (by decide)))
  · exact size_map_lt (size_declared_lt (hat (by decide)))
  · exact size_map_lt (size_declared_lt (hat (by decide)))
  · exact size_map_lt hunknown

namespace Item

variable {i : Item} {is : List Item}

/-- A clear declaration other than a deck is read by its word. -/
theorem reads (h : i.WellFormed) (hclear : i.isClear = true) (hdeck : i.isDeck = false) (depth : Nat)
    (hmid : NextItem mid) (hspared : Spared i.openWords mid) :
    (Parse.itemOfWord i.word).Reads ((i.print depth).toList ++ mid) mid
      fun j => j.withoutSpans = i.withoutSpans := by
  cases h with
  | deck => cases hdeck
  | diagram h =>
    obtain ⟨hconfig, hassets⟩ := Bool.and_eq_true_iff.1 hclear
    exact .map ((Parse.Reads.diagram h hconfig hassets depth hmid.calm).imp
      fun _ h => congrArg Item.diagram h)
  | runtime h =>
    exact .map ((Parse.Reads.runtime h hclear depth hmid.calm).imp fun _ h => congrArg Item.runtime h)
  | selectors =>
    exact .map ((Parse.Reads.selectors _ depth hmid.calm).imp fun _ h => congrArg Item.selectors h)
  | styles h =>
    exact .map ((Parse.Reads.styles h hclear depth hmid.calm).imp fun _ h => congrArg Item.styles h)
  | @define d h =>
    have hread := Parse.Reads.definition h hclear (hmid.endsExpr hspared)
    rw [print, toList_printLine]
    refine .throughLine (.indent (.bind hread fun d' hd' => ?_) _)
    exact .bind (.eatPunct_absent (hmid.absent (by decide))) fun _ _ =>
      .pure (congrArg Item.define hd')
  | scene h =>
    exact .map ((Parse.Reads.scene h hclear depth hmid.calm).imp fun _ h => congrArg Item.scene h)
  | binding h =>
    exact .map ((Parse.Reads.binding h hclear depth hmid.calm).imp fun _ h => congrArg Item.binding h)
  | plugin h =>
    exact .map ((Parse.Reads.plugin h hclear depth hmid hspared).imp
      fun _ h => congrArg Item.plugin h)
  | metadata h =>
    rw [print, toList_printLine]
    refine .throughLine (.indent (.map ?_) _)
    exact (Parse.Reads.metadata h hclear (hmid.absent (by decide))).imp
      fun _ h => congrArg Item.metadata h
  | @unknown u h =>
    have hother : Parse.itemOfWord (word (.unknown u)) = .unknown <$> Parse.unknownBlock :=
      Parse.itemOfWord_of_not_mem h.other
    rw [hother]
    refine .map ((Parse.Reads.unknownBlock h hclear depth hmid).imp ?_)
    rintro v ⟨hname, hraw⟩
    simp [withoutSpans, hname, hraw]

end Item

/-! ## Declarations one after the other -/

/-- The end of a block or of the text comes next. -/
def EndsItems (mid : List Char) : Prop :=
  Coming mid fun t => t.lexeme = .punct ∧ t.image = "\x7d" ∨ t.lexeme = .eof

namespace EndsItems

theorem nextItem (h : EndsItems mid) : NextItem mid :=
  h.imp fun _ => .inr

theorem spared (h : EndsItems mid) (words : List String) : Spared words mid :=
  h.imp fun t ht w _ => by
    unfold Token.isKeyword
    rcases ht with ⟨hlex, -⟩ | hlex <;> rw [hlex]

theorem nil : EndsItems [] :=
  .atEnd fun _ => .inr rfl

theorem brace (n : Nat) (rest : List Char) : EndsItems (List.replicate n ' ' ++ '\x7d' :: rest) :=
  Coming.indent (.punct (by decide) fun _ => .inl ⟨rfl, rfl⟩) n

end EndsItems

namespace Item

variable {i : Item} {is : List Item}

theorem toList_printAll_cons (depth : Nat) (i : Item) (is : List Item) (mid : List Char) :
    (printAll depth (i :: is)).toList ++ mid =
      (i.print depth).toList ++ ((printAll depth is).toList ++ mid) := by
  rw [printAll, String.toList_append, List.append_assoc]

/-- What comes behind a declaration ends it and is not absorbed by it. -/
theorem follows (h : ∀ j ∈ is, j.WellFormed) (hhead : is.head?.any i.absorbs = false) (depth : Nat)
    (hmid : EndsItems mid) : NextItem ((printAll depth is).toList ++ mid) ∧
      Spared i.openWords ((printAll depth is).toList ++ mid) := by
  cases is with
  | nil =>
    simp only [printAll, String.toList_empty, List.nil_append]
    exact ⟨hmid.nextItem, hmid.spared _⟩
  | cons j is =>
    rw [toList_printAll_cons]
    have hopens := j.opensWith depth ((printAll depth is).toList ++ mid)
    have hword := (h j List.mem_cons_self).word
    exact ⟨hopens.nextItem hword, hopens.spared hword (word_not_mem_openWords (by simpa using hhead))⟩

/-- Parts of a list of declarations that is clear. -/
theorem areClear_cons (h : areClear (i :: is) = true) :
    i.isClear = true ∧ is.head?.any i.absorbs = false ∧ areClear is = true := by
  simpa only [areClear, Bool.and_eq_true, Bool.not_eq_true', and_assoc] using h

/-- A declaration other than a deck reads itself and no more. -/
theorem readsItem_word (h : i.WellFormed) (hclear : i.isClear = true) (hdeck : i.isDeck = false)
    (depth : Nat) (hmid : NextItem mid) (hspared : Spared i.openWords mid) :
    Cursor.ReadsItem Cursor.item ((i.print depth).toList ++ mid) mid
      fun j => j.withoutSpans = i.withoutSpans := by
  intro c hc
  have hword := h.word
  have hne : i.word ≠ "deck" := by
    cases h with
    | deck => cases hdeck
    | @unknown u h =>
      intro (heq : u.name = "deck")
      exact h.other (heq ▸ by decide)
    | _ => simp [word]
  have hcoming : Coming ((i.print depth).toList ++ mid) fun t =>
      t.lexeme = wordLexeme i.word ∧ t.image = i.word :=
    (i.opensWith depth mid).coming hword.1 fun _ => ⟨rfl, rfl⟩
  obtain ⟨hlex, himage⟩ := hcoming.peek c hc
  have hshown := hword.isWord_lexeme hlex
  have hat (hmem : i.word ∈ itemWords) : c.atKeyword i.word = true := by
    rw [wordLexeme_of_mem_itemWords _ hmem] at hlex
    simp [Cursor.atKeyword, Token.isKeyword, hlex, himage]
  obtain ⟨hvalue, hnext⟩ := reads h hclear hdeck depth hmid hspared c hc
  rw [Cursor.item_of_word hword hne hlex himage]
  exact ⟨Cursor.goesOn_of_isWord hshown,
    Parse.size_itemOfWord_lt (Cursor.atEnd_eq_false_of_isWord hshown) hat, ⟨_, rfl, hvalue⟩, hnext⟩

/-- A deck reads the declarations in it. -/
theorem readsItem_deck (span : Span) (depth : Nat) (hcalm : Calm mid)
    (hitems : Cursor.ReadsItems Cursor.item ((printAll (depth + 1) is).toList ++
      (List.replicate (2 * depth) ' ' ++ '\x7d' :: '\n' :: mid)) ('\n' :: mid)
      fun js => allWithoutSpans js = allWithoutSpans is) :
    Cursor.ReadsItem Cursor.item ((print depth (.deck is span)).toList ++ mid) mid
      fun j => j.withoutSpans = (deck is span).withoutSpans := by
  rw [print, toList_printBlock]
  refine .indent (fun c hc => ?_) _
  have hshows := hc.keyword (by decide) rfl (fenced_space _)
  have hat : c.atKeyword "deck" = true := by simp [hshows.atKeyword]
  have hblock : (Parse.block "a deck declaration" Cursor.item).Reads _ _ _ :=
    .block (hitems.blank (b := '\n') (by decide)) hcalm.lineFeed
  obtain ⟨hvalue, hnext⟩ := hblock _ hshows.next.space
  rw [Cursor.item, dif_pos hat]
  refine ⟨hshows.goesOn, ?_, ⟨_, rfl, ?_⟩, hnext.lineFeed⟩
  · exact Nat.lt_of_le_of_lt (Parse.block "a deck declaration" Cursor.item c.advance).le
      (Cursor.size_advance_lt hshows.going)
  · exact congrArg (Item.deck · default) hvalue

mutual

/-- A clear declaration is read as it was printed. -/
theorem readsItem (i : Item) (h : i.WellFormed) (hclear : i.isClear = true) (depth : Nat)
    (mid : List Char) (hmid : NextItem mid) (hspared : Spared i.openWords mid) :
    Cursor.ReadsItem Cursor.item ((i.print depth).toList ++ mid) mid
      fun j => j.withoutSpans = i.withoutSpans := by
  cases i with
  | deck is span =>
    cases h with
    | deck h => exact readsItem_deck span depth hmid.calm (readsAll is h hclear _ _ _)
  | _ => exact readsItem_word h hclear rfl depth hmid hspared

/-- Clear declarations between braces are read as they were printed. -/
theorem readsAll (is : List Item) (h : ∀ i ∈ is, i.WellFormed) (hclear : areClear is = true)
    (depth n : Nat) (rest : List Char) :
    Cursor.ReadsItems Cursor.item
      ((printAll depth is).toList ++ (List.replicate n ' ' ++ '\x7d' :: rest)) rest
      fun js => allWithoutSpans js = allWithoutSpans is := by
  cases is with
  | nil =>
    simp only [printAll, String.toList_empty, List.nil_append]
    exact (Cursor.ReadsItems.nil.indent n).imp fun js hjs => by rw [hjs]
  | cons i is =>
    obtain ⟨hi, hhead, his⟩ := areClear_cons hclear
    have htail : ∀ j ∈ is, j.WellFormed := fun j hj => h j (List.mem_cons_of_mem _ hj)
    obtain ⟨hnext, hspared⟩ := follows htail hhead depth (.brace n rest)
    rw [toList_printAll_cons]
    refine (Cursor.ReadsItems.cons (readsItem i (h i List.mem_cons_self) hi depth _ hnext hspared)
      (readsAll is htail his depth n rest)).imp ?_
    rintro _ ⟨j, js, rfl, hj, hjs⟩
    simp only [allWithoutSpans, hj, hjs]

end

end Item

/-! ## Programs -/

theorem Item.isDeck_withoutSpans (i : Item) : i.withoutSpans.isDeck = i.isDeck := by
  cases i <;> rfl

theorem Cursor.reads_items {is : List Item} {first : Bool} (h : ∀ i ∈ is, i.WellFormed)
    (hclear : Item.areClear is = true) (hdeck : first = true → DeckAlone is) {c : Cursor}
    (hc : c.At (Item.printAll 0 is).toList) : (items first false c).Reads []
      fun js => Item.allWithoutSpans js = Item.allWithoutSpans is := by
  have hnil (first afterDeck : Bool) {c : Cursor} (hc : c.At []) :
      (items first afterDeck c).Reads [] (· = []) := by
    rw [items, dif_pos hc.atEnd]
    exact ⟨rfl, hc⟩
  induction is generalizing first c with
  | nil =>
    obtain ⟨hvalue, hnext⟩ := hnil first false hc
    exact ⟨by rw [hvalue], hnext⟩
  | cons i is ih =>
    obtain ⟨hi, hhead, his⟩ := Item.areClear_cons hclear
    have htail : ∀ j ∈ is, j.WellFormed := fun j hj => h j (List.mem_cons_of_mem _ hj)
    obtain ⟨hmid, hspared⟩ := Item.follows htail hhead 0 .nil
    rw [List.append_nil] at hmid hspared
    rw [Item.printAll, String.toList_append] at hc
    obtain ⟨hopen, hlt, ⟨j, hj, hgood⟩, hnext⟩ :=
      i.readsItem (h i List.mem_cons_self) hi 0 _ hmid hspared c hc
    have hgoing : c.atEnd = false := (Bool.or_eq_false_iff.1 hopen).2
    have hturn := afterTurn_of_lt hlt "a declaration"
    have hbehind : (itemsBehind first false c).Reads []
        fun js => Item.allWithoutSpans js = Item.allWithoutSpans is := by
      show (items (first && c.item.value.isNone) (first && c.atKeyword "deck")
        (c.afterTurn c.item.next "a declaration")).Reads _ _
      rw [hturn, hj, Option.isNone_some, Bool.and_false]
      cases hafter : first && c.atKeyword "deck" with
      | true =>
        -- Nothing comes behind a deck that comes first
        obtain ⟨hfirst, hkey⟩ := Bool.and_eq_true_iff.1 hafter
        have hi : i.isDeck = true := by
          rw [← i.isDeck_withoutSpans, ← hgood, j.isDeck_withoutSpans, isDeck_of_item hj, hkey]
        obtain rfl := hdeck hfirst i is rfl hi
        obtain ⟨hvalue, hend⟩ := hnil false true hnext
        exact ⟨by rw [hvalue], hend⟩
      | false => exact ih htail his (by simp) hnext
    obtain ⟨hvalue, hend⟩ := items_of_going first false hgoing
    have hfirst : (c.beforeItem false).item.value = some j := hj
    rw [Parsed.Reads, hvalue, hend, hfirst]
    refine ⟨?_, hbehind.2⟩
    simp only [Option.toList_some, List.singleton_append, Item.allWithoutSpans, hgood, hbehind.1]

/-- A clear program is read as it was printed. -/
theorem Parse.Reads.program? {p : Program} (h : p.WellFormed) (hclear : p.isClear = true) :
    Parse.program?.Reads p.print.toList [] fun o =>
      ∃ q, o = some q ∧ q.withoutSpans = p.withoutSpans := by
  have htext : p.print.toList = "mpd".toList ++ ' ' :: (p.version.raw.toList ++
      '\n' :: (Item.printAll 0 p.items).toList) := by
    simp [Program.print, printLine]
  have hmid : NextItem (Item.printAll 0 p.items).toList := by
    have hnext : NextItem ((Item.printAll 0 p.items).toList ++ []) := by
      cases hitems : p.items with
      | nil => exact EndsItems.nil.nextItem
      | cons i is =>
        rw [Item.toList_printAll_cons]
        exact (i.opensWith 0 _).nextItem (h.items i (by simp [hitems])).word
    rwa [List.append_nil] at hnext
  rw [htext]
  have hword : IsWord "mpd".toList := by decide
  refine see fun start => look true (fun c hc => ?_) ?_
  · simp [(hc.keyword hword rfl (fenced_space _)).atKeyword]
  refine bind (expectKeyword hword rfl (fenced_space _)) fun _ _ => space ?_
  refine bind (version h.version hmid.calm.lineFeed (hmid.absent (by decide))) fun v hv => lineFeed ?_
  refine bind (fun c hc => Cursor.reads_items h.items hclear (fun _ => h.deck) hc) fun js hjs => ?_
  refine see fun stop => pure ⟨_, rfl, ?_⟩
  simp [Program.withoutSpans, hv, hjs]

end DiagramTour
