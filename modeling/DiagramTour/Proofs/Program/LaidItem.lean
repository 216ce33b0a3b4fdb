import DiagramTour.Proofs.Program.AbreastItem
import DiagramTour.Proofs.Program.LaidStep
import DiagramTour.Proofs.Program.RoundTrip

/-!
# Declarations in order

Every declaration lays out itself as one phrase, and a program its version and its declarations.  So the
spans of a program are those of parts of its text, and without an error they are nested as its phrases are
and in order.

## Architecture

- `Parse.DiagramPart.phrases` are the phrases in a part of a diagram, of which the last ones are kept.
- `Cursor.lays_item` goes through the kinds of declarations; only a deck holds declarations.
- `spans_are_sound` reads off what lies between the first cursor of a text and the last one.
-/

namespace DiagramTour

open Cursor (Reach Ahead Laid Covers)

variable {α : Type} {source : List Char} {c d o : Cursor} {fs : List (List Phrase)} {begun : Prop}
  {w : String}

/-! ## Diagrams -/

/-- The settings of a part of a diagram. -/
def Parse.DiagramPart.phrases : Parse.DiagramPart → List Phrase
  | .config e | .assets e => [.expr e]
  | .source _ | .nothing => []

/-- What a diagram has is what it had before its parts, or stands in one of them. -/
theorem Parse.DiagramPart.foldl_addTo (parts : List Parse.DiagramPart) (d : Diagram) :
    (parts.foldl addTo d).span = d.span ∧
      ((parts.foldl addTo d).config = d.config ∨
        ((parts.foldl addTo d).config.toList.map .expr).Sublist (parts.flatMap phrases)) ∧
      ((parts.foldl addTo d).assets = d.assets ∨
        ((parts.foldl addTo d).assets.toList.map .expr).Sublist (parts.flatMap phrases)) := by
  induction parts generalizing d with
  | nil => exact ⟨rfl, .inl rfl, .inl rfl⟩
  | cons part parts ih =>
    obtain ⟨hspan, hconfig, hassets⟩ := ih (part.addTo d)
    rw [List.foldl_cons, List.flatMap_cons]
    have hlater {us : List Phrase} (h : us.Sublist (parts.flatMap phrases)) :
        us.Sublist (part.phrases ++ parts.flatMap phrases) :=
      h.trans (List.sublist_append_right ..)
    refine ⟨hspan.trans (by cases part <;> rfl), ?_, ?_⟩
    · rcases hconfig with hsame | hsub
      · rw [hsame]
        cases part with
        | config e => exact .inr (by simp [addTo, phrases])
        | source s | assets e | nothing => exact .inl rfl
      · exact .inr (hlater hsub)
    · rcases hassets with hsame | hsub
      · rw [hsame]
        cases part with
        | assets e => exact .inr (by simp [addTo, phrases])
        | source s | config e | nothing => exact .inl rfl
      · exact .inr (hlater hsub)

namespace Parse.Lays

theorem diagramPart? :
    Parse.diagramPart?.Lays source fun p => [p.toList.flatMap Parse.DiagramPart.phrases] := by
  refine Fills.lays fun o => .skip (eatKeyword _) fun b => ?_
  cases b with
  | true =>
    refine .look fun t => ?_
    split
    · exact .skip next fun _ => .pure (by simp [DiagramPart.phrases])
    · exact .skip (unexpected _) fun _ => .pure (by simp [DiagramPart.phrases])
  | false =>
    refine .skip (eatKeyword _) fun b => ?_
    cases b with
    | true => exact .bind object fun e => .pure (by simp [DiagramPart.phrases])
    | false =>
      refine .skip (eatKeyword _) fun b => ?_
      cases b with
      | true => exact .bind object fun e => .pure (by simp [DiagramPart.phrases])
      | false => exact .pure (by simp)

theorem diagram : Parse.diagram.Lays source fun d => [[.item (.diagram d)]] := by
  refine opens fun o => .skip optionalName fun name => .bind (block diagramPart?) fun parts =>
    .close (fun span => .item (.diagram (parts.foldl DiagramPart.addTo ⟨name, none, none, none, span⟩)))
      (fun span => (DiagramPart.foldl_addTo parts _).1) (fun span => ?_) fun span => .pure (by simp)
  obtain ⟨-, hconfig, hassets⟩ := DiagramPart.foldl_addTo parts ⟨name, none, none, none, span⟩
  rw [List.nil_append]
  refine List.forall_mem_cons.2 ⟨?_, List.forall_mem_singleton.2 ?_⟩
  · exact hconfig.imp (fun h => by rw [h]; rfl) fun h => ⟨_, List.mem_singleton_self _, h⟩
  · exact hassets.imp (fun h => by rw [h]; rfl) fun h => ⟨_, List.mem_singleton_self _, h⟩

/-! ## The player -/

theorem pluginEnd (o : Cursor) (text localName : Option String) (options : Option Expr) :
    (Parse.pluginEnd o.here text localName options).Fills source o True [options.toList.map .expr]
      fun p => [[.item (.plugin p)]] :=
  .skip (eatPunct _) fun _ =>
    .close (fun span => .item (.plugin ⟨text.getD "", localName, options, span⟩)) (fun _ => rfl)
      (by simp [Phrase.lists, Phrase.ofItem]) fun span => .pure (by simp)

theorem pluginFromOptions (o : Cursor) (text localName : Option String) :
    (Parse.pluginFromOptions o.here text localName).Fills source o True []
      fun p => [[.item (.plugin p)]] := by
  have hobject : (some <$> Parse.object : Parse (Option Expr)).Lays source
      fun e => [e.toList.map .expr] := map object
  have hnone : (Pure.pure none : Parse (Option Expr)).Lays source fun e => [e.toList.map .expr] :=
    Fills.lays fun o => .pure (by simp)
  refine .look fun b => ?_
  cases b with
  | true => exact .bind hobject fun options => pluginEnd o text localName options
  | false => exact .bind hnone fun options => pluginEnd o text localName options

theorem pluginFromAlias (o : Cursor) (text : Option String) :
    (Parse.pluginFromAlias o.here text).Fills source o True [] fun p => [[.item (.plugin p)]] := by
  refine .skip (eatKeyword _) fun b => ?_
  cases b with
  | true => exact .skip (name? _) fun localName => pluginFromOptions o text localName
  | false => exact .skip (pure_nil none) fun localName => pluginFromOptions o text localName

theorem plugin : Parse.plugin.Lays source fun p => [[.item (.plugin p)]] := by
  refine opens fun o => .skip optionalString fun text => ?_
  split
  · exact .skip (unexpected _) fun _ => pluginFromAlias o text
  · exact pluginFromAlias o text

/-- The word for a part of the player is read, if it comes next. -/
theorem sectionKind? (hc : c.Stands source) : c.Ahead source (Parse.sectionKind? c).next ∧
    ((Parse.sectionKind? c).value.isSome → (Parse.sectionKind? c).next.size < c.size) := by
  have hword {word : String} (h : c.atKeyword word = true) :
      c.Ahead source c.advance ∧ c.advance.size < c.size :=
    ⟨.advance hc, Cursor.size_advance_lt (Cursor.atEnd_eq_false_of_atKeyword h)⟩
  by_cases hcamera : c.atKeyword "camera" = true
  · simpa [Parse.sectionKind?, Parse.eatKeyword, hcamera] using hword hcamera
  by_cases hoverlay : c.atKeyword "overlay" = true
  · simpa [Parse.sectionKind?, Parse.eatKeyword, hcamera, hoverlay] using hword hoverlay
  by_cases hnavigation : c.atKeyword "navigation" = true
  · simpa [Parse.sectionKind?, Parse.eatKeyword, hcamera, hoverlay, hnavigation] using
      hword hnavigation
  by_cases hperformance : c.atKeyword "performance" = true
  · simpa [Parse.sectionKind?, Parse.eatKeyword, hcamera, hoverlay, hnavigation, hperformance] using
      hword hperformance
  · simpa [Parse.sectionKind?, Parse.eatKeyword, hcamera, hoverlay, hnavigation, hperformance] using
      Ahead.refl hc

theorem runtimeSection? :
    Parse.runtimeSection?.Lays source fun s => [s.toList.map .runtimeSection] := by
  intro c hc
  obtain ⟨hahead, hlt⟩ := sectionKind? hc
  simp only [Parse.runtimeSection?, Parse.bind_apply, Parse.start, Parse.look, Parsed.andThen_value,
    Parsed.andThen_next, Parsed.here_value, Parsed.here_next]
  cases hkind : (Parse.sectionKind? c).value with
  | none => exact .of_laid (.nil hahead)
  | some km =>
    have hinside : c.Filling source True [] (Parse.sectionKind? c).next :=
      ⟨.nil hahead, fun _ _ => hlt (by simp [hkind])⟩
    have hfills : (do
        let entries ← Parse.entries km.2
        return some ⟨km.1, entries, ← Parse.spanFrom c.here⟩ : Parse (Option RuntimeSection)).Fills
          source c True [] fun s => [s.toList.map .runtimeSection] :=
      .bind (entries km.2) fun es => .close (fun span => .runtimeSection ⟨km.1, es, span⟩)
        (fun _ => rfl) (by simp [Phrase.lists]) fun span => .pure (by simp)
    exact (hfills _ hinside).reach

theorem runtime : Parse.runtime.Lays source fun r => [[.item (.runtime r)]] :=
  opens fun o => .bind (phrases runtimeSection?) fun sections =>
    .close (fun span => .item (.runtime ⟨sections, span⟩)) (fun _ => rfl)
      (by simp [Phrase.lists, Phrase.ofItem]) fun span => .pure (by simp)

theorem selector? : Parse.selector?.Lays source fun s => [s.toList.map .selector] := by
  intro c hc
  cases h : c.peek.isName with
  | false =>
    simpa [Parse.selector?, Parse.start, Parse.look, h] using Reach.of_laid (.nil (Ahead.refl hc))
  | true =>
    have hname : ((do
        let name ← Parse.next
        Parse.expectPunct ":"
        let target ← Parse.target
        Parse.eatPunct ","
        return some ⟨name.text, target, ← Parse.spanFrom c.here⟩ : Parse (Option Selector)) c).Lays
          source fun s => [s.toList.map .selector] := by
      refine behindToken (Cursor.atEnd_eq_false_of_isName h) ?_
      exact .skip (expectPunct _) fun _ => .bind target fun target => .skip (eatPunct _) fun _ =>
        .close (fun span => .selector ⟨c.peek.text, target, span⟩) (fun _ => rfl)
          (by simp [Phrase.lists]) fun span => .pure (by simp)
    simpa [Parse.selector?, Parse.start, Parse.look, h] using hname hc

theorem selectors : Parse.selectors.Lays source fun s => [[.item (.selectors s)]] :=
  opens fun o => .bind (phrases selector?) fun entries =>
    .close (fun span => .item (.selectors ⟨entries, span⟩)) (fun _ => rfl)
      (by simp [Phrase.lists, Phrase.ofItem]) fun span => .pure (by simp)

theorem styles : Parse.styles.Lays source fun s => [[.item (.styles s)]] :=
  opens fun o => .bind (entries .plain) fun entries =>
    .close (fun span => .item (.styles ⟨entries, span⟩)) (fun _ => rfl)
      (by simp [Phrase.lists, Phrase.ofItem]) fun span => .pure (by simp)

end Parse.Lays

/-! ## Blocks that are not understood -/

namespace Parse

theorem ahead_balanced (depth stop : Nat) (hc : c.Stands source) :
    c.Ahead source (balanced depth stop c).next := by
  induction hn : c.size using Nat.strongRecOn generalizing depth stop c with
  | _ n ih =>
    rw [balanced]
    split
    · exact .unexpected hc _
    · rename_i h
      have hlt : c.advance.size < n := hn ▸ Cursor.size_advance_lt (by simpa using h)
      have hstep := Ahead.advance hc
      have hrest (k : Nat) (stop : Nat) := hstep.trans (ih _ hlt k stop hstep.stands rfl)
      dsimp only
      split_ifs
      · exact hrest _ _
      · exact hstep
      · exact hrest _ _
      · exact hrest _ _

theorem ahead_restOfLine (line stop : Nat) (hc : c.Stands source) :
    c.Ahead source (restOfLine line stop c).next := by
  induction hn : c.size using Nat.strongRecOn generalizing stop c with
  | _ n ih =>
    rw [restOfLine]
    split_ifs with h
    · exact .refl hc
    · have hlt : c.advance.size < n := hn ▸ Cursor.size_advance_lt (by simpa using h)
      have hstep := Ahead.advance hc
      exact hstep.trans (ih _ hlt _ hstep.stands rfl)
    · exact .refl hc

theorem ahead_blockBody (hc : c.Stands source) : c.Ahead source (blockBody c).next := by
  have hname := Ahead.advance hc
  unfold blockBody
  split
  · exact hname.trans (ahead_balanced _ _ hname.stands)
  · exact hname.trans (ahead_restOfLine _ _ hname.stands)

theorem lays_unknownBlock (hend : c.atEnd = false) :
    (unknownBlock c).Lays source fun u => [[.item (.unknown u)]] := by
  intro hc
  obtain ⟨-, -, hnext⟩ := unknownBlock_eq c
  have hbody := ahead_blockBody hc
  have hlt : (blockBody c).next.size < c.size :=
    Nat.lt_of_le_of_lt (blockBody c).le (Cursor.size_advance_lt hend)
  rw [hnext]
  exact (Reach.nil hbody).node rfl (by simp [Phrase.lists, Phrase.ofItem]) fun _ => hlt

/-- A declaration other than a deck is one phrase. -/
theorem lays_itemOfWord (hend : c.atEnd = false) :
    (itemOfWord w c).Lays source fun i => [[.item i]] := by
  intro hc
  unfold itemOfWord
  split
  · exact .of_laid ((Lays.metadata c hc).laid.rename rfl rfl)
  · have hread : c.Reach source [[.item (.define (definition c).value)]] (definition c).next :=
      .of_laid ((Lays.definition c hc).laid.rename rfl rfl)
    exact hread.step (.eatPunct hread.ahead.stands _)
  · exact Lays.plugin c hc
  · exact Lays.diagram c hc
  · exact Lays.runtime c hc
  · exact Lays.selectors c hc
  · exact Lays.styles c hc
  · exact Lays.scene c hc
  · exact .of_laid ((Lays.binding c hc).laid.rename rfl rfl)
  · exact lays_unknownBlock hend hc

end Parse

/-! ## Declarations -/

namespace Cursor

theorem lays_item (c : Cursor) : c.item.Lays source fun i => [i.toList.map .item] := by
  intro hc
  induction hn : c.size using Nat.strongRecOn generalizing c with
  | _ n ih =>
    rw [item]
    split
    · rename_i h
      have hlt := size_advance_lt (atEnd_eq_false_of_atKeyword h)
      have hword := Ahead.advance hc
      have hblock := Reach.after hword (lays_phrases "a deck declaration"
        (fun d hd hstands => ih d.size (by omega) d hstands rfl) hword.stands)
      refine hblock.node (t := .item _) rfl (by simp [Phrase.lists, Phrase.ofItem]) fun _ => ?_
      exact Nat.lt_of_le_of_lt (c.advance.block _ _).le hlt
    · split
      · rename_i hlex
        have hend : c.atEnd = false := atEnd_eq_false_of_peek (by simp [Token.isEnd, hlex])
        exact Parse.lays_itemOfWord hend hc
      · rename_i hlex
        have hend : c.atEnd = false := atEnd_eq_false_of_peek (by simp [Token.isEnd, hlex])
        exact Parse.lays_unknownBlock hend hc
      · exact .of_laid (.nil (.refl hc))

theorem ahead_beforeItem (afterDeck : Bool) (hc : c.Stands source) :
    c.Ahead source (c.beforeItem afterDeck) := by
  unfold beforeItem
  split
  · exact .unexpected hc _
  · exact .refl hc

theorem lays_items (first afterDeck : Bool) (c : Cursor) :
    (items first afterDeck c).Lays source fun is => [is.map .item] := by
  intro hc
  induction hn : c.size using Nat.strongRecOn generalizing first afterDeck c with
  | _ n ih =>
    cases hend : c.atEnd with
    | true =>
      rw [items, dif_pos hend]
      exact .of_laid (.nil (.refl hc))
    | false =>
      obtain ⟨hvalue, hnext⟩ := items_of_going first afterDeck hend
      have hbefore := ahead_beforeItem afterDeck hc
      have hturn := Reach.after hbefore (lays_item (c.beforeItem afterDeck) hbefore.stands)
      have hafter := hturn.step (hturn.ahead.afterTurn "a declaration")
      have hlt := size_afterTurn_lt hend
        (Nat.le_trans (c.beforeItem afterDeck).item.le (Nat.le_of_eq (size_beforeItem afterDeck c)))
        "a declaration"
      have htail : (itemsBehind first afterDeck c).Lays source fun is => [is.map .item] :=
        fun hstands => ih _ (hn ▸ hlt) _ _ _ hstands rfl
      rw [hvalue, hnext]
      simpa using hafter.append (htail hafter.ahead.stands)

/-- Declarations are read up to the end of the text. -/
theorem atEnd_items (first afterDeck : Bool) (c : Cursor) :
    (items first afterDeck c).next.atEnd = true := by
  induction hn : c.size using Nat.strongRecOn generalizing first afterDeck c with
  | _ n ih =>
    cases hend : c.atEnd with
    | true =>
      rw [items, dif_pos hend]
      exact hend
    | false =>
      have hlt := size_afterTurn_lt hend
        (Nat.le_trans (c.beforeItem afterDeck).item.le (Nat.le_of_eq (size_beforeItem afterDeck c)))
        "a declaration"
      rw [(items_of_going first afterDeck hend).2]
      exact ih _ (hn ▸ hlt) _ _ _ rfl

end Cursor

/-! ## Programs -/

namespace Parse.Lays

theorem versionTail (c : Cursor) : (Parse.versionTail c).Lays source fun _ => [] := by
  intro hc
  induction hn : c.size using Nat.strongRecOn generalizing c with
  | _ n ih =>
    rw [Parse.versionTail]
    split
    · rename_i h
      have hlt := Cursor.size_advance_lt_of_atPunct (Bool.and_eq_true_iff.1 h).1
      have hle := Cursor.size_advance_le c.advance
      have hpoint := Ahead.advance hc
      have hpart := hpoint.trans (.advance hpoint.stands)
      exact .after hpart (ih _ (by omega) c.advance.advance hpart.stands rfl)
    · exact .nil (.refl hc)

theorem version : Parse.version.Lays source fun v => [[.version v]] := by
  intro c hc
  cases h : Parse.versionTail.isVersionPart c.peek with
  | false =>
    have hmissing := Laid.missing (t := .version ⟨"", [], .point c.here⟩) hc
      (.unexpected hc "a version number") (Cursor.failed_unexpected c _) rfl (by simp [Phrase.lists])
    simpa [Parse.version, Parse.start, Parse.look, Parse.unexpected, h] using Reach.of_laid hmissing
  | true =>
    have hend : c.atEnd = false := by
      refine Cursor.atEnd_eq_false_of_peek ?_
      revert h
      cases c.peek with
      | mk lexeme image span => cases lexeme <;> simp [Parse.versionTail.isVersionPart, Token.isEnd]
    have hparts : ((do
        let first ← Parse.next
        let tail ← Parse.versionTail
        let raw := first.image ++ tail
        return ⟨raw, Parse.versionParts raw, ← Parse.spanFrom c.here⟩ : Parse Version) c).Lays source
          fun v => [[.version v]] := by
      refine behindToken hend (.skip versionTail fun tail => ?_)
      exact .close (fun span => .version ⟨c.peek.image ++ tail,
        Parse.versionParts (c.peek.image ++ tail), span⟩) (fun _ => rfl) (by simp [Phrase.lists])
          fun span => .pure (by simp)
    simpa [Parse.version, Parse.start, Parse.look, h] using hparts hc

end Parse.Lays

/-- A program goes on from its word with its version and its declarations, up to the end. -/
theorem Parse.program?_eq (h : c.atKeyword "mpd" = true) :
    let items := Cursor.items true false (Parse.version c.advance).next
    (Parse.program? c).value = some ⟨(Parse.version c.advance).value, items.value,
        ⟨c.here, items.next.peek.span.stop⟩⟩ ∧ (Parse.program? c).next = items.next := by
  have hexpect : c.expectKeyword "mpd" = c.advance := if_pos h
  rw [← hexpect]
  unfold Parse.program?
  simp only [Parse.bind_apply, Parse.start, Parse.look, Parsed.andThen_next, Parsed.here_next,
    Parsed.andThen_value, Parsed.here_value, h]
  exact ⟨rfl, rfl⟩

/-- The declarations of a program stand between its version and the end of the text. -/
theorem Parse.program?_laid (hc : c.Stands source) {p : Program}
    (h : (Parse.program? c).value = some p) :
    c.Laid source (.version p.version :: p.items.map .item) (Parse.program? c).next ∧
      p.span = ⟨c.here, (Parse.program? c).next.here⟩ := by
  cases hword : c.atKeyword "mpd" with
  | false =>
    rw [(Parse.program?_of_not_atKeyword hword).1] at h
    cases h
  | true =>
    have hopen := Ahead.advance hc
    have hversion := Reach.after hopen (Parse.Lays.version c.advance hopen.stands)
    have hitems := Cursor.lays_items true false _ hversion.ahead.stands
    have hend := Cursor.atEnd_items true false (Parse.version c.advance).next
    obtain ⟨hvalue, hnext⟩ := Parse.program?_eq hword
    rw [hnext]
    rw [hvalue] at h
    cases h
    refine ⟨(hversion.append hitems).laid, ?_⟩
    -- Behind the last declaration nothing is left
    rw [Cursor.atEnd, List.isEmpty_iff] at hend
    simp [Cursor.here, Cursor.peek, hend, Token.endAt, Span.point]

/-! ## All phrases of a program -/

/-- Every span in the tree of a text is that of a part of the text: it starts no later than it ends,
ends within the text, and its ends have the lines and columns of their offsets.  If there is no error,
the span of a phrase holds those of all phrases below it, and the phrases of each list in the tree stand
apart and in order. -/
theorem spans_are_sound (text : String) {p : Program} (h : (parse text).program = some p) :
    (∀ t, Relation.ReflTransGen Phrase.Has (.program p) t →
      t.span.IsPlaced text.toList ∧ t.span.stop.offset ≤ utf8Length text.toList) ∧
    (hasErrors (parse text).diagnostics = false →
      ∀ t, Relation.ReflTransGen Phrase.Has (.program p) t →
        (∀ u, Relation.ReflTransGen Phrase.Has t u → t.span.Contains u.span) ∧
        ∀ us ∈ t.lists, us.Pairwise fun u v => u.span.Precedes v.span) := by
  have hstands := Cursor.stands_outset text
  obtain ⟨hlaid, hspan⟩ := Parse.program?_laid hstands h
  have hplaced : Phrase.Throughout (fun u => u.span.IsPlaced text.toList) (.program p) := by
    refine Phrase.throughout_iff.2 ⟨?_, ?_⟩
    · show p.span.IsPlaced text.toList
      rw [hspan]
      exact ⟨hlaid.ahead.here, hstands.here_isIn, hlaid.ahead.stands.here_isIn⟩
    · simpa [Phrase.lists] using hlaid.placed
  refine ⟨fun t ht => ⟨hplaced t ht, (hplaced t ht).stop.offset_le⟩, fun hok => ?_⟩
  have hread : ¬(Parse.program? (Cursor.outset text)).next.Failed := by
    rw [parse, hasErrors_append, Bool.or_eq_false_iff] at hok
    rw [Cursor.Failed, Bool.not_eq_true]
    exact hok.2
  have htidy : Phrase.Throughout Phrase.Tidy (.program p) := by
    refine Phrase.throughout_iff.2 ⟨⟨?_, ?_⟩, ?_⟩
    · simp only [Phrase.lists, List.forall_mem_singleton]
      intro u hu
      have hspan : Phrase.span (.program p) =
          ⟨(Cursor.outset text).here, (Parse.program? (Cursor.outset text)).next.here⟩ := hspan
      rw [hspan]
      exact ⟨(hlaid.between u hu).1, (hlaid.between u hu).2⟩
    · simpa only [Phrase.lists, List.forall_mem_singleton] using hlaid.ordered
    · simp only [Phrase.lists, List.forall_mem_singleton]
      exact fun u hu => (hlaid.tidy hread u hu).1
  refine fun t ht => ⟨fun u hu => ?_, (htidy t ht).ordered⟩
  have hbelow : t.Throughout Phrase.Tidy := fun v hv => htidy v (ht.trans hv)
  exact hbelow.contains hu

/-- The spans of a text with a deck, a raw block, a block that is not understood, operators and
targets. -/
theorem guidedText_spans_are_sound : ∃ p, (parse guidedText).program = some p ∧
    hasErrors (parse guidedText).diagnostics = false ∧
    (∀ t, Relation.ReflTransGen Phrase.Has (.program p) t → t.span.IsPlaced guidedText.toList) ∧
    ∀ t, Relation.ReflTransGen Phrase.Has (.program p) t →
      ∀ us ∈ t.lists, us.Pairwise fun u v => u.span.Precedes v.span := by
  obtain ⟨hsome, hok, -⟩ := guidedText_read
  obtain ⟨p, hp⟩ := Option.isSome_iff_exists.1 hsome
  obtain ⟨hplaced, htidy⟩ := spans_are_sound guidedText hp
  exact ⟨p, hp, hok, fun t ht => (hplaced t ht).1, fun t ht => (htidy hok t ht).2⟩

end DiagramTour
