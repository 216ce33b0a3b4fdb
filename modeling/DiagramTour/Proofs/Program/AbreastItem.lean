import DiagramTour.Proofs.Program.AbreastStep
import DiagramTour.Proofs.Program.YieldsProgram

/-!
# Reading the same declarations twice, one by one

From two cursors abreast the same declaration is read, up to spans, also if it is not understood: its
text is kept as it stands, and it stands in both texts.  So a list of declarations up to the end of a
text is the list in a deck, as long as no deck is among them.
-/

namespace DiagramTour

open Cursor (Onward Abreast Beside PartsTally)

variable {c d : Cursor}

/-! ## Plugins and the player -/

/-- The settings of one part of the player with empty spans. -/
def RuntimeSection.withoutSpans (s : RuntimeSection) : RuntimeSection :=
  { s with entries := Expr.entriesWithoutSpans s.entries, span := default }

/-- The name for a target with empty spans. -/
def Selector.withoutSpans (s : Selector) : Selector :=
  { s with target := s.target.withoutSpans, span := default }

namespace Parse

/-- The end of a plugin whose options were read. -/
def pluginEnd (start : Position) (source localName : Option String) (options : Option Expr) :
    Parse Plugin := do
  eatPunct ";"
  return ⟨source.getD "", localName, options, ← spanFrom start⟩

/-- A plugin from its options on. -/
def pluginFromOptions (start : Position) (source localName : Option String) : Parse Plugin := do
  let options ← do
    if ← look (·.atPunct Cursor.openBrace) then some <$> object else pure none
  pluginEnd start source localName options

/-- A plugin from its alias on. -/
def pluginFromAlias (start : Position) (source : Option String) : Parse Plugin := do
  let localName ← do
    if ← eatKeyword "as" then name? "a plugin alias" else pure none
  pluginFromOptions start source localName

end Parse

namespace Parse.Tallies

theorem pluginEnd (start start' : Position) (source localName : Option String) {o o' : Option Expr}
    (ho : o.map Expr.withoutSpans = o'.map Expr.withoutSpans) :
    (Parse.pluginEnd start source localName o).Tallies Plugin.withoutSpans
      (Parse.pluginEnd start' source localName o') :=
  (eatPunct (by decide)).same fun _ => (spanFrom _ _).any fun _ _ => pure (by
    simp only [Plugin.withoutSpans, ho])

theorem pluginFromOptions (start start' : Position) (source localName : Option String) :
    (Parse.pluginFromOptions start source localName).Tallies Plugin.withoutSpans
      (Parse.pluginFromOptions start' source localName) := by
  refine (lookPunct (by decide)).same fun b => ?_
  cases b with
  | true => exact object.bind fun _ _ he => pluginEnd _ _ _ _ (by exact congrArg some he)
  | false => exact pluginEnd _ _ _ _ rfl

theorem pluginFromAlias (start start' : Position) (source : Option String) :
    (Parse.pluginFromAlias start source).Tallies Plugin.withoutSpans
      (Parse.pluginFromAlias start' source) := by
  refine (eatKeyword _).same fun b => ?_
  cases b with
  | true => exact (name? _).same fun _ => pluginFromOptions _ _ _ _
  | false => exact pluginFromOptions _ _ _ _

theorem plugin : Parse.plugin.Tallies Plugin.withoutSpans Parse.plugin := by
  refine start.any fun _ _ => (expectKeyword _).same fun _ => optionalString.same fun source => ?_
  dsimp only
  split
  · exact (unexpected _ _).same fun _ => pluginFromAlias _ _ _
  · exact pluginFromAlias _ _ _

theorem sectionKind? : Parse.sectionKind?.Tallies (fun o => o) Parse.sectionKind? := by
  refine (eatKeyword _).same fun b => ?_
  cases b with
  | true => exact pure rfl
  | false =>
      refine (eatKeyword _).same fun b => ?_
      cases b with
      | true => exact pure rfl
      | false =>
          refine (eatKeyword _).same fun b => ?_
          cases b with
          | true => exact pure rfl
          | false =>
              refine (eatKeyword _).same fun b => ?_
              cases b with
              | true => exact pure rfl
              | false => exact pure rfl

theorem runtimeSection? : Parse.runtimeSection?.Tallies (Option.map RuntimeSection.withoutSpans)
    Parse.runtimeSection? := by
  refine start.any fun _ _ => sectionKind?.same fun o => ?_
  cases o with
  | none => exact pure rfl
  | some km =>
      obtain ⟨kind, mode⟩ := km
      refine (entries mode).bind fun es es' hes => (spanFrom _ _).any fun _ _ => pure ?_
      rw [← Expr.entriesWithoutSpans_eq, ← Expr.entriesWithoutSpans_eq] at hes
      simp only [Option.map_some, RuntimeSection.withoutSpans, hes]

theorem runtime : Parse.runtime.Tallies Runtime.withoutSpans Parse.runtime :=
  start.any fun _ _ => (expectKeyword _).same fun _ => (block runtimeSection?).bind fun _ _ hs =>
    (spanFrom _ _).any fun _ _ => pure (congrArg (Runtime.mk · default) hs)

theorem selector? :
    Parse.selector?.Tallies (Option.map Selector.withoutSpans) Parse.selector? := by
  refine start.any fun _ _ => readIf .isName rfl (fun t u halike _ => ?_) (pure rfl)
  refine (expectPunct _).same fun _ => target.bind fun x x' hx =>
    (eatPunct (by decide)).same fun _ => (spanFrom _ _).any fun _ _ => pure ?_
  simp only [Option.map_some, Selector.withoutSpans, halike.text, hx]

theorem selectors : Parse.selectors.Tallies Selectors.withoutSpans Parse.selectors :=
  start.any fun _ _ => (expectKeyword _).same fun _ => (block selector?).bind fun _ _ hs =>
    (spanFrom _ _).any fun _ _ => pure (congrArg (Selectors.mk · default) hs)

theorem styles : Parse.styles.Tallies Styles.withoutSpans Parse.styles := by
  refine start.any fun _ _ => (expectKeyword _).same fun _ => (entries .plain).bind fun es es' hes =>
    (spanFrom _ _).any fun _ _ => pure ?_
  rw [← Expr.entriesWithoutSpans_eq, ← Expr.entriesWithoutSpans_eq] at hes
  exact congrArg (Styles.mk · default) hes

/-! ## Diagrams -/

theorem diagramPart? :
    Parse.diagramPart?.Tallies (Option.map Parse.DiagramPart.bare) Parse.diagramPart? := by
  have hsource : Token.Blind Parse.sourceOf? := ⟨fun _ _ => rfl, rfl⟩
  refine (eatKeyword _).same fun b => ?_
  cases b with
  | true =>
      rw [if_pos rfl]
      refine fun c d => ?_
      rw [look_bind, look_bind]
      cases hs : Parse.sourceOf? c.peek with
      | none => exact .failed (.unexpected c _) (Cursor.failed_unexpected c _)
      | some source =>
          refine ⟨.advance c, fun hab _ => ?_⟩
          have hend := Cursor.atEnd_eq_false_of_ne hsource hs (Option.some_ne_none source).symm
          rw [hab.peek hsource, hs]
          exact ⟨rfl, (hab.next hend).2⟩
  | false =>
      refine (eatKeyword _).same fun b => ?_
      cases b with
      | true => exact object.bind fun _ _ he => pure (congrArg (some ∘ Parse.DiagramPart.config) he)
      | false =>
          refine (eatKeyword _).same fun b => ?_
          cases b with
          | true => exact object.bind fun _ _ he => pure (congrArg (some ∘ Parse.DiagramPart.assets) he)
          | false => exact pure rfl

theorem diagram : Parse.diagram.Tallies Diagram.withoutSpans Parse.diagram := by
  refine start.any fun _ _ => (expectKeyword _).same fun _ => optionalName.same fun name =>
    (block diagramPart?).bind fun ps ps' hps => (spanFrom _ _).any fun _ _ => pure ?_
  rw [Parse.withoutSpans_foldl_addTo, Parse.withoutSpans_foldl_addTo, hps]
  rfl

end Parse.Tallies

/-! ## Blocks that are not understood -/

variable {s : Bool} {w cs ws im r raw y : List Char} {m : Munch} {ts : List RawToken}
  {depth line line' stop stop' : Nat}

/-- A run of tokens is cut in the same way in a deck. -/
theorem Cuts.deckTail (h : Cuts y s raw ts) : Cuts (y ++ deckTail) s raw ts := by
  induction h with
  | nil => exact .nil
  | cons hcut hrest ih =>
      refine .cons ?_ ih
      rw [← List.append_assoc]
      exact hcut.deckTail

/-- From cursors beside each other the same run of tokens was read, and each reader tells where the run
ends; for an empty run it is where what was read before ended. -/
def RunBeside (s : Bool) (w cs : List Char) (stop stop' : Nat) {c d : Cursor} (p : Parsed c Nat)
    (q : Parsed d Nat) : Prop :=
  ∃ raw y ts s', cs = raw ++ y ∧ Cuts y s raw ts ∧ Beside s' (w ++ raw) y p.next q.next ∧
    p.value = (if ts.isEmpty then stop
      else (Position.start.advance (bareHead ++ (w ++ raw))).offset) ∧
    q.value = (if ts.isEmpty then stop'
      else (Position.start.advance (deckHead ++ (w ++ raw))).offset)

theorem RunBeside.here (h : Beside s w cs c d) (stop stop' : Nat) :
    RunBeside s w cs stop stop' (Parsed.here c stop) (Parsed.here d stop') :=
  ⟨[], cs, [], s, rfl, .nil, by simpa using h, rfl, rfl⟩

theorem RunBeside.abreast {p : Parsed c Nat} {q : Parsed d Nat}
    (h : RunBeside s w cs stop stop' p q) : Abreast p.next q.next := by
  obtain ⟨raw, y, -, s', -, -, hnext, -⟩ := h
  exact ⟨s', _, y, hnext⟩

/-- One more token before a run. -/
theorem RunBeside.cons (hcut : CutsOff s ws im r m) {k k' : Nat}
    (hk : k = (Position.start.advance (bareHead ++ w ++ ws ++ im)).offset)
    (hk' : k' = (Position.start.advance (deckHead ++ w ++ ws ++ im)).offset)
    {p : Parsed c.advance Nat} {q : Parsed d.advance Nat}
    (h : RunBeside (signAfter m.lexeme (String.ofList im)) (w ++ (ws ++ im)) r k k' p q)
    (stop stop' : Nat) : RunBeside s w (ws ++ (im ++ r)) stop stop' (p.weaken c.size_advance_le)
      (q.weaken d.size_advance_le) := by
  obtain ⟨raw, y, ts, s', rfl, hcuts, hnext, hp, hq⟩ := h
  refine ⟨ws ++ (im ++ raw), y, _, s', by simp, .cons hcut hcuts, by simpa using hnext, ?_, ?_⟩
  · have hoffset := hcuts.offset_eq (bareHead ++ w ++ ws ++ im)
    simp only [List.append_assoc] at hk hp hoffset ⊢
    rw [Parsed.weaken_value, hp, hk, hoffset]
    rfl
  · have hoffset := hcuts.offset_eq (deckHead ++ w ++ ws ++ im)
    simp only [List.append_assoc] at hk' hq hoffset ⊢
    rw [Parsed.weaken_value, hq, hk', hoffset]
    rfl

namespace Parse

theorem balanced_beside (h : Beside s w cs c d) (hok : ¬(balanced depth stop c).next.Failed) :
    RunBeside s w cs stop stop' (balanced depth stop c) (balanced depth stop' d) := by
  induction hn : c.size using Nat.strongRecOn generalizing c d s w cs depth stop stop' with
  | _ n ih =>
      cases hend : c.atEnd with
      | true =>
          -- A block that the text ends in is not closed
          rw [balanced.eq_1 depth stop c, dif_pos hend] at hok
          exact absurd (Cursor.failed_unexpected c _) hok
      | false =>
          obtain ⟨ws, im, r, m, rfl, hc, hd, hcut, hnext⟩ := h.step hend
          have habreast : Abreast c d := ⟨s, w, _, h⟩
          have hmark (mark : String) : d.atPunct mark = c.atPunct mark := by
            rw [Cursor.atPunct, Cursor.atPunct, hc, hd]
            rfl
          have hk : c.peek.span.stop.offset =
              (Position.start.advance (bareHead ++ w ++ ws ++ im)).offset := by rw [hc]
          have hk' : d.peek.span.stop.offset =
              (Position.start.advance (deckHead ++ w ++ ws ++ im)).offset := by rw [hd]
          have hlt := Cursor.size_advance_lt hend
          -- However many braces are open behind the token, the run goes on there
          have hmore (depth : Nat)
              (hok : ¬(balanced depth c.peek.span.stop.offset c.advance).next.Failed) :=
            RunBeside.cons hcut hk hk' (ih _ (hn ▸ hlt) hnext hok rfl) stop stop'
          rw [balanced.eq_1 depth stop c, dif_neg (by simp [hend])] at hok ⊢
          rw [balanced.eq_1 depth stop' d, dif_neg (by simp [habreast.atEnd]), hmark, hmark]
          dsimp only at hok ⊢
          by_cases hopen : c.atPunct Cursor.openBrace = true
          · rw [if_pos hopen] at hok ⊢
            rw [if_pos hopen]
            exact hmore _ hok
          rw [if_neg hopen] at hok ⊢
          rw [if_neg hopen]
          by_cases hclose : c.atPunct Cursor.closeBrace = true
          · rw [if_pos hclose] at hok ⊢
            rw [if_pos hclose]
            by_cases hone : depth = 1
            · rw [if_pos hone, if_pos hone]
              exact .cons hcut hk hk' (.here hnext _ _) stop stop'
            · rw [if_neg hone] at hok ⊢
              rw [if_neg hone]
              exact hmore _ hok
          · rw [if_neg hclose] at hok ⊢
            rw [if_neg hclose]
            exact hmore _ hok

/-- Text stays on the line it begins on unless that line ends in it. -/
theorem line_append_eq_iff {pre : List Char} (ws : List Char)
    (h : (Position.start.advance pre).line = line) :
    (Position.start.advance (pre ++ ws)).line = line ↔ '\n' ∉ ws := by
  rw [Position.advance_append, ← h]
  exact Position.line_advance_eq_iff _ ws

theorem line_lt_append {pre : List Char} (h : (Position.start.advance pre).line = line)
    (hws : '\n' ∈ ws) : line < (Position.start.advance (pre ++ ws)).line := by
  rw [Position.advance_append, ← h]
  exact Position.line_lt_advance _ hws

/-- The tokens on a line are the same in both texts, for the brace that closes the deck has a line of
its own. -/
theorem restOfLine_beside (h : Beside s w cs c d)
    (hline : (Position.start.advance (bareHead ++ w)).line = line)
    (hline' : (Position.start.advance (deckHead ++ w)).line = line') :
    RunBeside s w cs stop stop' (restOfLine line stop c) (restOfLine line' stop' d) := by
  induction hn : c.size using Nat.strongRecOn generalizing c d s w cs stop stop' with
  | _ n ih =>
      have habreast : Abreast c d := ⟨s, w, _, h⟩
      cases hend : c.atEnd with
      | true =>
          obtain ⟨-, -, hhere, -⟩ := h.ended hend
          -- The brace of the deck is on a later line, so the run ends before it
          have hlater : ¬d.here.line = line' := by
            rw [hhere, ← List.append_assoc, line_append_eq_iff _ hline']
            simp
          rw [restOfLine.eq_1 line stop c, dif_pos hend, restOfLine.eq_1 line' stop' d,
            dif_neg (by simp [habreast.atEnd]), if_neg hlater]
          exact .here h stop stop'
      | false =>
          obtain ⟨ws, im, r, m, rfl, hc, hd, hcut, hnext⟩ := h.step hend
          have hk : c.peek.span.stop.offset =
              (Position.start.advance (bareHead ++ w ++ ws ++ im)).offset := by rw [hc]
          have hk' : d.peek.span.stop.offset =
              (Position.start.advance (deckHead ++ w ++ ws ++ im)).offset := by rw [hd]
          have hon : c.here.line = line ↔ '\n' ∉ ws := by
            rw [Cursor.here, hc]
            exact line_append_eq_iff ws hline
          have hon' : d.here.line = line' ↔ '\n' ∉ ws := by
            rw [Cursor.here, hd]
            exact line_append_eq_iff ws hline'
          rw [restOfLine.eq_1 line stop c, dif_neg (by simp [hend]), restOfLine.eq_1 line' stop' d,
            dif_neg (by simp [habreast.atEnd])]
          by_cases hws : '\n' ∈ ws
          · rw [if_neg (by rw [hon]; simpa using hws), if_neg (by rw [hon']; simpa using hws)]
            exact .here h stop stop'
          · rw [if_pos (hon.2 hws), if_pos (hon'.2 hws)]
            refine RunBeside.cons hcut hk hk' ?_ stop stop'
            by_cases him : '\n' ∈ im
            · -- Behind a raw block comes a later line
              have hlater := List.mem_append_right ws him
              have hbare := hnext.bare
              have hdeck := hnext.deck
              rw [← List.append_assoc] at hbare hdeck
              rw [restOfLine_later hbare (line_lt_append hline hlater),
                restOfLine_later hdeck (line_lt_append hline' hlater)]
              exact .here hnext _ _
            · have hsame : '\n' ∉ ws ++ im := by simp [hws, him]
              refine ih _ (hn ▸ Cursor.size_advance_lt hend) hnext ?_ ?_ rfl
              · rw [← List.append_assoc]
                exact (line_append_eq_iff _ hline).2 hsame
              · rw [← List.append_assoc]
                exact (line_append_eq_iff _ hline').2 hsame

/-- What follows the name of a block is the same run. -/
theorem blockBody_beside (hnext : Beside s (w ++ (ws ++ im)) r c.advance d.advance)
    (hc : c.peek.span.stop = Position.start.advance (bareHead ++ w ++ ws ++ im))
    (hd : d.peek.span.stop = Position.start.advance (deckHead ++ w ++ ws ++ im))
    (hok : ¬(blockBody c).next.Failed) :
    RunBeside s (w ++ (ws ++ im)) r c.peek.span.stop.offset d.peek.span.stop.offset (blockBody c)
      (blockBody d) := by
  have habreast : Abreast c.advance d.advance := ⟨_, _, _, hnext⟩
  unfold blockBody at hok ⊢
  rw [habreast.atPunct (by decide)]
  by_cases hopen : c.advance.atPunct Cursor.openBrace = true
  · rw [if_pos hopen] at hok ⊢
    rw [if_pos hopen]
    exact balanced_beside hnext hok
  · rw [if_neg hopen, if_neg hopen]
    refine restOfLine_beside hnext ?_ ?_
    · simp [hc]
    · simp [hd]

end Parse

/-- The block with an empty span. -/
def UnknownBlock.withoutSpan (u : UnknownBlock) : UnknownBlock :=
  { u with span := default }

/-- What is kept of a run that was read from cursors beside each other is the same. -/
theorem RunBeside.slice {p : Parsed c Nat} {q : Parsed d Nat} (h : Beside s w cs c d)
    (hrun : RunBeside s w cs stop stop' p q)
    (hstop : stop = (Position.start.advance (bareHead ++ w)).offset)
    (hstop' : stop' = (Position.start.advance (deckHead ++ w)).offset) :
    (if c.here.offset < p.value then DiagramTour.slice c.source c.here.offset p.value else []) =
      if d.here.offset < q.value then DiagramTour.slice d.source d.here.offset q.value else [] := by
  obtain ⟨raw, y, ts, s', rfl, hcuts, -, hp, hq⟩ := hrun
  cases ts with
  | nil =>
      -- What comes next comes behind what was read
      have hhere := h.bare.notAfter_here.offset
      have hhere' := h.deck.notAfter_here.offset
      rw [List.isEmpty_nil, if_pos rfl] at hp hq
      rw [if_neg (by omega), if_neg (by omega)]
  | cons k ts =>
      have hdeck := h.deck
      rw [List.append_assoc] at hdeck
      obtain ⟨r, hr, -, -, -, hslice⟩ := h.bare.slice hcuts
      obtain ⟨r', hr', -, -, -, hslice'⟩ := hdeck.slice hcuts.deckTail
      have hsame : r = r' := List.append_cancel_left (hr.symm.trans hr')
      simp only [List.isEmpty_cons, Bool.false_eq_true, if_false, ← List.append_assoc] at hp hq
      rw [hp, hq, hslice, hslice', hsame]

namespace Parse.Tallies

theorem unknownBlock (c d : Cursor) (hend : c.atEnd = false) :
    (Parse.unknownBlock c).Tallies UnknownBlock.withoutSpan (Parse.unknownBlock d) := by
  obtain ⟨hname, hraw, hlast⟩ := unknownBlock_eq c
  obtain ⟨hname', hraw', hlast'⟩ := unknownBlock_eq d
  refine ⟨hlast ▸ (Onward.advance c).trans (onward_blockBody c), fun hab hok => ?_⟩
  obtain ⟨s, w, cs, h⟩ := hab
  obtain ⟨ws, im, r, m, rfl, hc, hd, -, hnext⟩ := h.step hend
  rw [hlast] at hok
  have hrun := blockBody_beside hnext (by rw [hc]) (by rw [hd]) hok
  have hslice := hrun.slice hnext (by rw [hc]; simp) (by rw [hd]; simp)
  rw [(Onward.advance c).source, (Onward.advance d).source] at hslice
  have himage : c.peek.image = d.peek.image := by rw [hc, hd]
  refine ⟨?_, ?_⟩
  · simp only [UnknownBlock.withoutSpan, hname, hname', hraw, hraw', hslice, himage]
  · rw [hlast, hlast']
    exact hrun.abreast

/-! ## Declarations -/

theorem itemOfWord (word : String) (c d : Cursor) (hend : c.atEnd = false) :
    (Parse.itemOfWord word c).Tallies Item.withoutSpans (Parse.itemOfWord word d) := by
  unfold Parse.itemOfWord
  split
  · exact metadata.map (fun _ _ h => by exact congrArg Item.metadata h) c d
  · exact definition.bind (fun _ _ h => (eatPunct (by decide)).same fun _ =>
      pure (by exact congrArg Item.define h)) c d
  · exact plugin.map (fun _ _ h => by exact congrArg Item.plugin h) c d
  · exact diagram.map (fun _ _ h => by exact congrArg Item.diagram h) c d
  · exact runtime.map (fun _ _ h => by exact congrArg Item.runtime h) c d
  · exact selectors.map (fun _ _ h => by exact congrArg Item.selectors h) c d
  · exact styles.map (fun _ _ h => by exact congrArg Item.styles h) c d
  · exact scene.map (fun _ _ h => by exact congrArg Item.scene h) c d
  · exact binding.map (fun _ _ h => by exact congrArg Item.binding h) c d
  · exact (unknownBlock c d hend).map fun _ _ h => by exact congrArg Item.unknown h

end Parse.Tallies

namespace Cursor

/-- A declaration other than a deck. -/
theorem tallies_item (hdeck : c.atKeyword "deck" = false) :
    c.item.Tallies (Option.map Item.withoutSpans) d.item := by
  refine ⟨(yields_item c).onward, fun hab => ?_⟩
  rw [item.eq_1 c, item.eq_1 d, dif_neg (by simp [hdeck]),
    dif_neg (by simp [hab.atKeyword, hdeck])]
  refine Parsed.Tallies.tally (f := Option.map Item.withoutSpans) ?_ hab
  rcases hab.next_or_ended with ⟨hend, halike, -⟩ | ⟨hc, hd⟩
  · rw [← halike.lexeme, ← halike.image]
    split
    · exact (Parse.Tallies.itemOfWord _ c d hend).map fun _ _ h => congrArg some h
    · exact (Parse.Tallies.unknownBlock c d hend).map
        fun _ _ h => congrArg (some ∘ Item.unknown) h
    · exact .here fun _ => rfl
  · rw [hc, hd]
    exact .here fun _ => rfl

theorem isWord_of_atPunct {mark : String} (h : c.atPunct mark = true) : c.peek.isWord = false := by
  unfold atPunct Token.isPunct at h
  unfold Token.isWord
  split at h <;> simp_all

/-- No declaration begins where no word comes next. -/
theorem item_of_not_isWord (h : c.peek.isWord = false) : c.item = .here c none := by
  have hkeyword : ¬c.atKeyword "deck" = true := by
    unfold Token.isWord at h
    unfold atKeyword Token.isKeyword
    split <;> simp_all
  rw [item, dif_neg hkeyword]
  unfold Token.isWord at h
  split at h <;> simp_all

/-- A turn that reads nothing is reported. -/
theorem failed_afterTurn_item {context : String} (h : c.peek.isWord = false) :
    (c.afterTurn c.item.next context).Failed := by
  rw [item_of_not_isWord h, Parsed.here_next, afterTurn, if_pos rfl, recover, if_pos rfl, failed_advance]
  exact failed_unexpected c context

/-- Where a deck is read a deck is among the declarations. -/
theorem exists_isDeck_of_item (h : c.atKeyword "deck" = true) :
    ∃ i, c.item.value = some i ∧ i.isDeck = true := by
  rw [item, dif_pos h]
  exact ⟨_, rfl, rfl⟩

/-- Where no deck is read none comes next. -/
theorem atKeyword_deck_of_items {first : Bool} (hend : c.atEnd = false)
    (h : ∀ i ∈ (items first false c).value, i.isDeck = false) : c.atKeyword "deck" = false := by
  refine Bool.eq_false_iff.2 fun hword => ?_
  obtain ⟨i, hi, htrue⟩ := exists_isDeck_of_item hword
  have hfirst : (c.beforeItem false).item.value = some i := hi
  rw [(items_of_going first false hend).1, hfirst] at h
  exact absurd htrue (Bool.eq_false_iff.1 (h i (List.mem_append_left _ (List.mem_singleton.2 rfl))))

/-- Behind a declaration other than a deck the next ones are read. -/
theorem itemsBehind_of_word (first : Bool) (hword : c.atKeyword "deck" = false) :
    itemsBehind first false c =
      items (first && c.item.value.isNone) false (c.afterTurn c.item.next "a declaration") := by
  show items _ (first && c.atKeyword "deck") _ = _
  rw [hword, Bool.and_false]
  rfl

/-- Declarations up to the end of the text, no deck among them, are those in a deck. -/
theorem tallies_items {b : Nat} (first : Bool) (hab : Abreast c d) (hd : d.size < b)
    (hok : ¬(items first false c).next.Failed)
    (hdeck : ∀ i ∈ (items first false c).value, i.isDeck = false) :
    (items first false c).value.map Item.withoutSpans =
        (blockItems b "a deck declaration" (fun e _ => e.item) d hd).value.map Item.withoutSpans ∧
      Abreast (items first false c).next
        (blockItems b "a deck declaration" (fun e _ => e.item) d hd).next ∧
      (items first false c).next.atEnd = true := by
  induction hn : c.size using Nat.strongRecOn generalizing c d first with
  | _ n ih =>
      cases hend : c.atEnd with
      | true =>
          rw [items, dif_pos hend, blockItems_of_stop _ _ (by simp [(hab.ended hend).1])]
          exact ⟨rfl, hab, hend⟩
      | false =>
          have hword := atKeyword_deck_of_items hend hdeck
          obtain ⟨hvalue, hnext⟩ := items_of_going first false hend
          rw [itemsBehind_of_word first hword] at hvalue hnext
          rw [hvalue] at hdeck
          rw [hnext] at hok
          rw [hvalue, hnext]
          -- Neither the turn nor the declarations behind it failed
          have hafter : ¬(c.afterTurn c.item.next "a declaration").Failed := fun h =>
            hok ((yields_items _ _ _).onward.failed h)
          have hclose : c.atPunct closeBrace = false :=
            Bool.eq_false_iff.2 fun h => hafter (failed_afterTurn_item (isWord_of_atPunct h))
          obtain ⟨hlt', hvalue', hnext'⟩ := blockItems_of_turn "a deck declaration"
            (fun e _ => e.item) (by rw [hab.atStop, hclose, hend]; decide) hd
          obtain ⟨hitem, hbeside⟩ := (tallies_item hword).tally hab fun h => hafter (h.afterTurn _)
          have hlt := size_afterTurn_lt hend c.item.le "a declaration"
          obtain ⟨htail, hlast, hdone⟩ := ih _ (hn ▸ hlt) _
            (hab.afterTurn hbeside hend "a declaration" "a deck declaration" hafter) hlt' hok
            (fun i hi => hdeck i (List.mem_append_right _ hi)) rfl
          rw [hvalue', hnext']
          refine ⟨?_, hlast, hdone⟩
          rw [List.map_append, List.map_append, htail, ← Option.toList_map, ← Option.toList_map]
          exact congrArg (·.toList ++ _) hitem

end Cursor

end DiagramTour
