import DiagramTour.Proofs.Program.Extent
import DiagramTour.Proofs.Program.Nodes

/-!
# Blocks that are not understood, in the tree of a text

Wherever such a block stands in the tree, it was read from tokens of the text: it is kept from the one
behind its name to the last one that belongs to it, and the declarations behind it are read from there.

## Architecture

- `Loop` puts the loop over the declarations of a text and the one over those of a deck side by side:
  `run_of_going` is a turn of either, and `exists_turn` finds the turn that read a declaration.
- `Program.Siblings` are the lists of declarations in a tree, and `Siblings.exists_run` finds the run
  that read one of them.
- `UnknownBlock.Captured` is all that is said of a block, and `unknown_blocks_are_captured` says it.
-/

namespace DiagramTour

open Cursor (Ahead Onward)

variable {source : List Char} {c : Cursor} {l : Loop} {i : Item} {xs ys is : List Item}

/-! ## Declarations that were read -/

namespace Parse

theorem unknown_of_itemOfWord {w : String} {u : UnknownBlock}
    (h : (itemOfWord w c).value = .unknown u) : itemOfWord w = .unknown <$> unknownBlock := by
  revert h
  fun_cases itemOfWord w
  case case10 => exact fun _ => rfl
  all_goals
    intro h
    cases h

end Parse

namespace Cursor

/-- A block that is not understood is read where a word comes next. -/
theorem unknown_of_item {u : UnknownBlock} (h : c.item.value = some (.unknown u)) :
    c.peek.isWord = true ∧ (Parse.unknownBlock c).value = u ∧
      c.item.next = (Parse.unknownBlock c).next := by
  have hdeck : ¬c.atKeyword "deck" = true := by simp [← isDeck_of_item h, Item.isDeck]
  rw [item, dif_neg hdeck] at h ⊢
  cases hlex : c.peek.lexeme with
  | keyword =>
    simp only [hlex, Parsed.map_value, Option.some.injEq] at h ⊢
    have hunknown := Parse.unknown_of_itemOfWord h
    rw [hunknown] at h ⊢
    cases h
    exact ⟨by simp [Token.isWord, hlex], rfl, rfl⟩
  | identifier =>
    simp only [hlex, Parsed.map_value, Option.some.injEq, Item.unknown.injEq] at h ⊢
    exact ⟨by simp [Token.isWord, hlex], h, rfl⟩
  | _ => simp [hlex] at h

/-- How many tokens there may be at most does not matter to a block. -/
theorem blockItems_eq {α : Type} (context : String) (item : (d : Cursor) → Parsed d (Option α))
    {m n : Nat} (hm : c.size < m) (hn : c.size < n) :
    blockItems m context (fun d _ => item d) c hm = blockItems n context (fun d _ => item d) c hn := by
  induction hk : c.size using Nat.strongRecOn generalizing c with
  | _ k ih =>
    rw [blockItems, blockItems.eq_def n]
    split
    · rfl
    · rename_i hstop
      have hlt := size_afterTurn_lt (not_atEnd_of_not_stop hstop) (item c).le context
      dsimp only
      rw [ih _ (hk ▸ hlt) (Nat.lt_trans hlt hm) (Nat.lt_trans hlt hn) rfl]

end Cursor

/-! ## The loops over declarations -/

/-- A loop over declarations: that of a text, or that of a deck. -/
inductive Loop where
  | text (first afterDeck : Bool)
  | deck

namespace Loop

/-- The declarations that the loop reads. -/
def run : Loop → (c : Cursor) → Parsed c (List Item)
  | text first afterDeck, c => Cursor.items first afterDeck c
  | deck, c =>
    Cursor.blockItems (c.size + 1) "a deck declaration" (fun d _ => d.item) c (Nat.lt_succ_self _)

/-- Whether the loop is over. -/
def stops : Loop → Cursor → Bool
  | text _ _, c => c.atEnd
  | deck, c => c.atPunct Cursor.closeBrace || c.atEnd

/-- The cursor from which the next turn reads a declaration. -/
def turn : Loop → Cursor → Cursor
  | text _ afterDeck, c => c.beforeItem afterDeck
  | deck, c => c

/-- The loop behind the next turn. -/
def behind : Loop → Cursor → Loop
  | text first afterDeck, c => text (first && (c.beforeItem afterDeck).item.value.isNone)
      (first && (c.beforeItem afterDeck).atKeyword "deck")
  | deck, _ => deck

/-- The cursor behind the next turn. -/
def after (l : Loop) (c : Cursor) : Cursor :=
  c.afterTurn (l.turn c).item.next (match l with
    | text _ _ => "a declaration"
    | deck => "a deck declaration")

/-- The loop behind any declaration that is no deck. -/
def settled : Loop → Loop
  | text _ _ => text false false
  | deck => deck

variable {source : List Char} {c : Cursor} {l : Loop} {i : Item} {xs ys : List Item}

theorem run_of_stops (h : l.stops c = true) : (l.run c).value = [] ∧ (l.run c).next = c := by
  cases l with
  | text first afterDeck =>
    have hend : c.atEnd = true := h
    rw [run, Cursor.items, dif_pos hend]
    exact ⟨rfl, rfl⟩
  | deck =>
    have hend : (c.atPunct Cursor.closeBrace || c.atEnd) = true := h
    rw [run, Cursor.blockItems, dif_pos hend]
    exact ⟨rfl, rfl⟩

theorem size_turn (l : Loop) (c : Cursor) : (l.turn c).size = c.size := by
  cases l with
  | text _ afterDeck => exact c.size_beforeItem afterDeck
  | deck => rfl

theorem atEnd_of_not_stops (h : l.stops c = false) : c.atEnd = false := by
  cases l with
  | text => exact h
  | deck => exact (Bool.or_eq_false_iff.1 h).2

theorem size_after_lt (h : l.stops c = false) : (l.after c).size < c.size :=
  Cursor.size_afterTurn_lt (atEnd_of_not_stops h)
    (Nat.le_trans (l.turn c).item.le (Nat.le_of_eq (l.size_turn c))) _

/-- A turn reads a declaration or none, and the loop goes on behind it. -/
theorem run_of_going (h : l.stops c = false) :
    (l.run c).value = (l.turn c).item.value.toList ++ ((l.behind c).run (l.after c)).value ∧
      (l.run c).next = ((l.behind c).run (l.after c)).next := by
  cases l with
  | text first afterDeck => exact Cursor.items_of_going first afterDeck h
  | deck =>
    have hlt : (after deck c).size < c.size := size_after_lt h
    have hsame := Cursor.blockItems_eq "a deck declaration" Cursor.item
      (Nat.lt_succ_of_lt hlt) (Nat.lt_succ_self (after deck c).size)
    have hgoing : ¬(c.atPunct Cursor.closeBrace || c.atEnd) = true := by
      rw [Bool.not_eq_true]
      exact h
    rw [run, Cursor.blockItems, dif_neg hgoing]
    simp only [behind, run, ← hsame]
    refine ⟨?_, rfl⟩
    simp only [Parsed.weaken_value, Parsed.map_value, turn]
    cases c.item.value <;> rfl

theorem ahead_turn (l : Loop) (hc : c.Stands source) : c.Ahead source (l.turn c) := by
  cases l with
  | text _ afterDeck => exact Cursor.ahead_beforeItem afterDeck hc
  | deck => exact .refl hc

theorem ahead_run (l : Loop) (hc : c.Stands source) : c.Ahead source (l.run c).next := by
  cases l with
  | text first afterDeck => exact (Cursor.lays_items first afterDeck c hc).ahead
  | deck =>
    have hitem (d : Cursor) : d.item.Lays source fun i => [i.toList.flatMap fun i => [.item i]] := by
      simpa [List.map_eq_flatMap] using Cursor.lays_item d
    exact (Cursor.lays_blockItems "a deck declaration" (fun d _ => hitem d) _ hc).ahead

/-- Behind a declaration that is no deck the loop goes on in the same way, and right there. -/
theorem behind_of_item (hitem : (l.turn c).item.value = some i) (hdeck : i.isDeck = false) :
    l.behind c = l.settled := by
  cases l with
  | text first afterDeck =>
    have hsome : (c.beforeItem afterDeck).item.value = some i := hitem
    simp [behind, settled, hsome, ← Cursor.isDeck_of_item hsome, hdeck]
  | deck => rfl

theorem settled_behind (l : Loop) (c : Cursor) : (l.behind c).settled = l.settled := by
  cases l <;> rfl

/-- A declaration that was read was read by some turn, and the others behind it. -/
theorem exists_turn (hc : c.Stands source) (h : (l.run c).value = xs ++ i :: ys) :
    ∃ d, c.Ahead source d ∧ d.item.value = some i ∧ d.item.next.Ahead source (l.run c).next ∧
      (i.isDeck = false → d.item.next.size < d.size → (l.settled.run d.item.next).value = ys) := by
  -- On the tokens that are left: each turn of the loop reads one at least
  induction hn : c.size using Nat.strongRecOn generalizing l c xs with
  | _ n ih =>
    cases hstops : l.stops c with
    | true =>
      rw [(run_of_stops hstops).1] at h
      simp at h
    | false =>
      obtain ⟨hvalue, hnext⟩ := run_of_going hstops
      have hturn := l.ahead_turn hc
      have hread := hturn.trans (Cursor.lays_item (l.turn c) hturn.stands).ahead
      have hafter : (l.turn c).item.next.Ahead source (l.after c) := hread.afterTurn _
      rw [hvalue] at h
      rw [hnext]
      have hlater {xs : List Item} (h : ((l.behind c).run (l.after c)).value = xs ++ i :: ys) :
          ∃ d, c.Ahead source d ∧ d.item.value = some i ∧
            d.item.next.Ahead source ((l.behind c).run (l.after c)).next ∧
            (i.isDeck = false → d.item.next.size < d.size →
              (l.settled.run d.item.next).value = ys) := by
        obtain ⟨d, hahead, hd⟩ := ih _ (hn ▸ size_after_lt hstops) hafter.stands h rfl
        rw [settled_behind] at hd
        exact ⟨d, hread.trans (hafter.trans hahead), hd⟩
      cases hitem : (l.turn c).item.value with
      | none =>
        rw [hitem] at h
        exact hlater h
      | some j =>
        rw [hitem] at h
        cases xs with
        | cons x xs => exact hlater (List.cons.inj h).2
        | nil =>
          obtain ⟨rfl, hys⟩ := List.cons.inj h
          refine ⟨l.turn c, hturn, hitem, hafter.trans ((l.behind c).ahead_run hafter.stands),
            fun hdeck hlt => ?_⟩
          -- The turn has read something, so that nothing is skipped behind it
          have hhere : l.after c = (l.turn c).item.next :=
            if_neg (Nat.ne_of_lt (l.size_turn c ▸ hlt))
          rw [← behind_of_item hitem hdeck, ← hhere]
          exact hys

end Loop

theorem Cursor.exists_rest (h : c.atEnd = false) : ∃ t ts, c.rest = t :: ts := by
  cases hrest : c.rest with
  | nil => simp [atEnd, hrest] at h
  | cons t ts => exact ⟨t, ts, rfl⟩

/-- What is left at a cursor are the last tokens of the text. -/
theorem Cursor.Ahead.exists_tokens {text : String} (h : (outset text).Ahead source c) :
    ∃ before, (lex text).tokens = before ++ c.rest := by
  obtain ⟨n, hn⟩ := h.onward.rest
  exact ⟨(lex text).tokens.take n, by rw [hn]; exact (List.take_append_drop n _).symm⟩

/-- The declarations in a deck are read by the loop for them, behind its brace. -/
theorem Cursor.exists_run_of_deck {span : Span} (hc : c.Stands source)
    (h : c.item.value = some (.deck is span)) (hne : is ≠ []) : ∃ d, c.Ahead source d ∧
      (Loop.deck.run d).value = is ∧ (Loop.deck.run d).next.Ahead source c.item.next := by
  have hdeck : c.atKeyword "deck" = true := (isDeck_of_item h).symm
  have hnext : c.item.next = (c.advance.block "a deck declaration" fun d _ => d.item).next := by
    rw [item, dif_pos hdeck]
  rw [item, dif_pos hdeck] at h
  obtain ⟨rfl, -⟩ := Item.deck.inj (Option.some.inj h)
  rw [hnext]
  unfold block at hne ⊢
  split at hne
  · rename_i hopen
    have hword := Ahead.advance hc
    have hbrace := Ahead.advance hword.stands
    have hsame := blockItems_eq "a deck declaration" item
      (size_advance_lt_of_atPunct hopen) (Nat.lt_succ_self c.advance.advance.size)
    have hrun : (Loop.deck.run c.advance.advance).next.Ahead source
        ((Loop.deck.run c.advance.advance).next.expectPunct closeBrace) :=
      .expectPunct (Loop.deck.ahead_run hbrace.stands).stands _
    rw [dif_pos hopen]
    dsimp only
    rw [hsame]
    exact ⟨c.advance.advance, hword.trans hbrace, rfl, hrun⟩
  · exact absurd rfl hne

/-! ## The lists of declarations in a tree -/

/-- The lists of declarations in the tree of a program, each with the loop that goes on behind one of
them that is no deck. -/
inductive Program.Siblings (p : Program) : Loop → List Item → Prop where
  | items : p.Siblings (.text false false) p.items
  | deck {l : Loop} {xs is ys : List Item} {span : Span} :
      p.Siblings l (xs ++ .deck is span :: ys) → p.Siblings .deck is

variable {text : String} {p : Program}

/-- Each list of declarations was read by a run of its loop. -/
theorem Program.Siblings.exists_run (hp : (parse text).program = some p) (h : p.Siblings l is)
    (hne : is ≠ []) : ∃ k c, Loop.settled k = l ∧ (Cursor.outset text).Ahead text.toList c ∧
      (k.run c).value = is ∧
      (k.run c).next.Ahead text.toList (Parse.program? (Cursor.outset text)).next := by
  have hstands := Cursor.stands_outset text
  induction h with
  | items =>
    have hp : (Parse.program? (Cursor.outset text)).value = some p := hp
    cases hword : (Cursor.outset text).atKeyword "mpd" with
    | false =>
      rw [(Parse.program?_of_not_atKeyword hword).1] at hp
      cases hp
    | true =>
      have hopen := Ahead.advance hstands
      have hversion := hopen.trans (Parse.Lays.version _ hopen.stands).ahead
      obtain ⟨hvalue, hnext⟩ := Parse.program?_eq hword
      rw [hvalue] at hp
      cases hp
      rw [hnext]
      exact ⟨.text true false, _, rfl, hversion, rfl,
        .refl (Loop.ahead_run (.text true false) hversion.stands).stands⟩
  | @deck l xs is ys span _ ih =>
    obtain ⟨k, c, -, hahead, hrun, hlast⟩ := ih (by simp)
    obtain ⟨d, hturn, hitem, hbehind, -⟩ := Loop.exists_turn hahead.stands hrun
    have hd := hahead.trans hturn
    obtain ⟨e, hdeck, his, hend⟩ := Cursor.exists_run_of_deck hd.stands hitem hne
    exact ⟨.deck, e, rfl, hd.trans hdeck, his, hend.trans (hbehind.trans hlast)⟩

/-! ## Blocks in a tree -/

/-- How a block of the tree was read: at the cursor `c`, with the token `name` next, the tokens `kept`
behind it, and the tokens `later` behind those.  The loop `l` goes on there and reads `ys`. -/
structure UnknownBlock.Captured (text : String) (u : UnknownBlock) (l : Loop) (ys : List Item)
    (c : Cursor) (name : Token) (kept later : List Token) : Prop where
  /-- The block stands in the text, and begins with a word. -/
  reached : Onward (.outset text) c
  tokens : ∃ before, (lex text).tokens = before ++ name :: (kept ++ later)
  here : c.rest = name :: (kept ++ later)
  read : c.item.value = some (.unknown u)
  word : name.isWord = true
  image : u.name = name.image
  start : u.span.start = name.span.start
  /-- It goes on to the brace that closes the first one, to the end of the text or to that of the line. -/
  extent : Extent name kept later
  /-- It is kept as it stands in the text. -/
  raw : TextOf text.toList kept u.raw.toList
  /-- The braces that count are marks of their own in the text. -/
  marks : ∀ t ∈ kept, t.brace ≠ 0 → t.lexeme = .punct ∧
    (t.image = Cursor.openBrace ∨ t.image = Cursor.closeBrace) ∧
    t.span.Covers text.toList t.image.toList
  /-- Between braces the counter of open ones is ahead of zero before each token but the first one: it
  is the number of braces that were opened and not yet closed. -/
  counter : (∀ t ∈ kept.head?, t.isPunct Cursor.openBrace = true) → ∀ us ws, kept = us ++ ws →
    us ≠ [] → ws ≠ [] → ∃ depth : Nat, 0 < depth ∧ depth = nesting us ∧
      (Parse.blockBody c).GoesOnAs (Parse.balanced depth
        (c.advance.past us (ws ++ later)).lastStop.offset (c.advance.past us (ws ++ later)))
  /-- Reading goes on behind it. -/
  resumes : c.item.next.rest = later
  behind : (l.run c.item.next).value = ys
  /-- A brace that is never closed is reported at the end of the text. -/
  unended : kept ≠ [] → Unclosed kept →
    ⟨.unexpectedEnd "`\x7d`", .point (lex text).stop⟩ ∈ (parse text).diagnostics

/-- Every block of a tree that was not understood was read in this way. -/
theorem unknown_blocks_are_captured (text : String) {p : Program} {l : Loop} {xs ys : List Item}
    {u : UnknownBlock} (hp : (parse text).program = some p)
    (hu : p.Siblings l (xs ++ .unknown u :: ys)) :
    ∃ c name kept later, u.Captured text l ys c name kept later := by
  obtain ⟨k, b, rfl, hrun, his, hlast⟩ := hu.exists_run hp (by simp)
  obtain ⟨c, hturn, hread, hrest, hbehind⟩ := Loop.exists_turn hrun.stands his
  have hc := hrun.trans hturn
  obtain ⟨hword, rfl, hnext⟩ := Cursor.unknown_of_item hread
  obtain ⟨hname, -, hbody⟩ := Parse.unknownBlock_eq c
  have hend := Cursor.atEnd_eq_false_of_isWord hword
  have hlt : c.item.next.size < c.size := by
    rw [hnext, hbody]
    exact Nat.lt_of_le_of_lt (Parse.blockBody c).le (Cursor.size_advance_lt hend)
  obtain ⟨name, rest, hhere⟩ := Cursor.exists_rest hend
  have hpeek := Cursor.peek_of_rest hhere
  obtain ⟨before, hsplit⟩ := hc.exists_tokens
  rw [hhere] at hsplit
  rw [hpeek] at hword
  have hline := line_eq_of_isWord (by rw [hsplit]; simp) hword
  have hsource : c.source = text.toList := hc.onward.source
  have hlines := hc.stands.lines
  rw [hhere] at hlines
  obtain ⟨kept, later, rfl, hextent⟩ := exists_extent hlines
  obtain ⟨-, hlater, hunended⟩ := Parse.blockBody_of_extent hhere hline hextent
  exact ⟨c, name, kept, later, {
    reached := hc.onward
    tokens := ⟨_, hsplit⟩
    here := hhere
    read := hread
    word := hword
    image := by rw [hname, hpeek]
    start := congrArg (fun t : Token => t.span.start) hpeek
    extent := hextent
    raw := Parse.textOf_unknownBlock hc.stands hsource hhere hline hextent
    marks := fun t ht hbrace => by
      obtain ⟨hlex, himage⟩ := Token.punct_of_brace hbrace
      have hmem : t ∈ (lex text).tokens := by simp [hsplit, ht]
      exact ⟨hlex, himage, (Lexed.token_of_mem (cut_lexFrom true [] text.toList).1 hmem).2.2⟩
    counter := fun hopen us ws heq hne hws => by
      subst heq
      have hus := hextent.unclosed_of_append hopen rfl hws
      have hpos := hus us List.prefix_rfl hne
      refine ⟨(nesting us).toNat, by omega, by omega, ?_⟩
      exact Parse.blockBody_past (by rw [hhere, List.append_assoc]) hne hus
    resumes := by rw [hnext, hbody, hlater]
    behind := hbehind rfl hlt
    unended := fun hne hopen => by
      have hreport := hunended hne hopen
      rw [← hbody, ← hnext, hc.onward.stop] at hreport
      exact List.mem_append_right _ ((hrest.trans hlast).reports.subset hreport) }⟩

/-- Blocks: one with braces in a quoted text, in a comment and in a raw block, three that end with their
lines, and one that is never closed. -/
def sketchedText : String :=
  "mpd 1.0
theme \x7b a \"\x7d\" // \x7d
  <<<M
\x7d
M>>>
\x7d extras one
bare
plan two // three
open \x7b \x7b four \x7d
"

/-- The first of these blocks, with four declarations behind it. -/
theorem sketchedText_theme_is_captured : ∃ p u ys, (parse sketchedText).program = some p ∧
    p.Siblings (.text false false) ([] ++ .unknown u :: ys) ∧
    u.raw = "\x7b a \"\x7d\" // \x7d\n  <<<M\n\x7d\nM>>>\n\x7d" ∧ ys.length = 4 ∧
    ∃ c name kept later, u.Captured sketchedText (.text false false) ys c name kept later := by
  have hread : ((parse sketchedText).program.any fun p => p.items.length == 5 &&
      (p.items.head?.bind fun i => Node.unknown? (.item i)).any
        (·.raw == "\x7b a \"\x7d\" // \x7d\n  <<<M\n\x7d\nM>>>\n\x7d")) = true := by
    decide +kernel
  obtain ⟨p, hp, hchecks⟩ := (Option.any_eq_true _ _).1 hread
  obtain ⟨hlength, hfirst⟩ := Bool.and_eq_true_iff.1 hchecks
  obtain ⟨u, hu, hraw⟩ := (Option.any_eq_true _ _).1 hfirst
  obtain ⟨i, hi, hunknown⟩ := Option.bind_eq_some_iff.1 hu
  obtain ⟨ys, hitems⟩ := List.head?_eq_some_iff.1 hi
  obtain rfl : i = .unknown u := by
    cases i <;> cases hunknown
    rfl
  rw [hitems] at hlength
  have hall : p.Siblings (.text false false) ([] ++ .unknown u :: ys) := by
    rw [List.nil_append, ← hitems]
    exact .items
  exact ⟨p, u, ys, hp, hall, beq_iff_eq.1 hraw, by simpa using hlength,
    unknown_blocks_are_captured sketchedText hp hall⟩

end DiagramTour
