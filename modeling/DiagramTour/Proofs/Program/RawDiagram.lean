import DiagramTour.Proofs.Program.Decked
import DiagramTour.Proofs.Program.OneToken
import DiagramTour.Proofs.Program.RoundTrip

/-!
# Diagrams as raw blocks

The body of a raw block stands in the text as it is, line for line, so that no line of it may be the
closing one.  Nothing else is asked of it, except that it does not end with a carriage return, which
would count as a part of the line feed behind it.

## Architecture

- `Encloses` says which bodies a tag can enclose, `rawText` how the block is written.
- `Encloses.wellFormed` finds the lines of the body before the closing line, and no others.
- `Program.Frames` is a program that is well formed up to the raw block of one of its diagrams.
-/

namespace DiagramTour

variable {tag body : String} {cs mark rest : List Char} {p : Program} {d : Diagram} {n : Nat}

/-- A tag is a word of letters, digits, underscores and hyphens that begins with a letter or an
underscore.  No line of what it encloses is the tag and three brackets, up to carriage returns. -/
structure Encloses (tag body : String) : Prop where
  tagged : ∃ c cs, tag.toList = c :: cs ∧ startsTag c = true ∧ ∀ x ∈ cs, continuesTag x = true
  last : body.toList.getLast? ≠ some '\r'
  lines : ∀ line ∈ body.toList.splitOn '\n',
    line.rdropWhile (· == '\r') ≠ tag.toList ++ ['>', '>', '>']

/-- A raw block: the tag, the body and the tag again, each on lines of its own. -/
def rawText (tag body : String) : String :=
  "<<<" ++ tag ++ "\n" ++ body ++ "\n" ++ tag ++ ">>>"

theorem toList_rawText (tag body : String) :
    (rawText tag body).toList = rawImage tag.toList [] (body.toList ++ ['\n']) := by
  simp [rawText, rawImage, closingMark]

/-! ## The lines of a body -/

/-- Lines of which none is the closing one come before the closing line that follows them. -/
theorem linesBefore?_splitOn (hlines : ∀ line ∈ cs.splitOn '\n', trimReturns line ≠ mark)
    (hrest : linesBefore? mark rest = some []) :
    linesBefore? mark (cs ++ '\n' :: rest) = some (cs ++ ['\n']) := by
  induction hn : cs.length using Nat.strongRecOn generalizing cs with
  | _ n ih =>
    by_cases hmem : '\n' ∈ cs
    · obtain ⟨line, more, rfl, hnl⟩ := List.eq_append_cons_of_mem hmem
      rw [List.splitOn_append_cons_self_of_not_mem hnl, List.forall_mem_cons] at hlines
      rw [List.length_append, List.length_cons] at hn
      have hmore := ih more.length (by omega) hlines.2 rfl
      rw [List.append_assoc, List.append_assoc]
      exact linesBefore?_line hnl hlines.1 hmore
    · have hone : cs.splitOn '\n' = [cs] := by
        have hflat : ∀ line ∈ [cs], '\n' ∉ line := by simpa using hmem
        simpa using List.splitOn_intercalate '\n' hflat (List.cons_ne_nil _ _)
      rw [hone, List.forall_mem_singleton] at hlines
      exact linesBefore?_line hmem hlines hrest

theorem trimReturns_self (hlast : mark.getLast? ≠ some '\r') : trimReturns mark = mark := by
  have hnone : ∀ x ∈ ([] : List Char), x = '\r' := by simp
  simpa using trimReturns_append hlast hnone

theorem linesBefore?_self (hnl : '\n' ∉ mark) (hlast : mark.getLast? ≠ some '\r') :
    linesBefore? mark mark = some [] := by
  have hline := (takeWhile_line hnl []).1
  rw [List.append_nil, List.takeWhile_nil, List.append_nil] at hline
  rw [linesBefore?_eq, hline, if_pos (trimReturns_self hlast)]

/-- A body that a tag encloses can be written with the tag. -/
theorem Encloses.wellFormed (h : Encloses tag body) : (DiagramSource.heredoc tag body).WellFormed := by
  have htag : ∀ x ∈ tag.toList, continuesTag x = true := by
    obtain ⟨c, cs, htag, hc, hcs⟩ := h.tagged
    rw [htag]
    exact List.forall_mem_cons.2 ⟨continuesTag_of_startsTag hc, hcs⟩
  have hcloses := linesBefore?_self (not_mem_closingMark htag) (getLast?_closingMark tag.toList)
  have hlines := linesBefore?_splitOn h.lines hcloses
  refine ⟨⟨h.tagged, by simp, ?_⟩, ?_⟩
  · rw [List.append_assoc]
    exact hlines
  · rw [bodyOfLines_append]
    exact trimReturns_self h.last

/-! ## Programs around a raw block -/

/-- Declarations are well formed if those in their decks are. -/
theorem wellFormed_of_deckItems (h : ∀ i ∈ p.deckItems, i.WellFormed) : ∀ i ∈ p.items, i.WellFormed := by
  intro i hi
  have hmem {j : Item} (hj : j ∈ Program.deckItems ⟨p.version, [i], p.span⟩) : j ∈ p.deckItems :=
    List.mem_flatMap.2 ⟨i, hi, by simpa [Program.deckItems] using hj⟩
  cases i with
  | deck items span => exact .deck fun j hj => h j (hmem (by simpa [Program.deckItems] using hj))
  | _ => exact h _ (hmem (by simp [Program.deckItems]))

theorem Program.deckItems_withoutSpans (p : Program) :
    p.withoutSpans.deckItems = p.deckItems.map Item.withoutSpans := by
  unfold deckItems withoutSpans
  rw [Item.allWithoutSpans_eq, List.flatMap_map, List.map_flatMap]
  refine List.flatMap_congr fun i _ => ?_
  cases i <;> simp [Item.withoutSpans, Item.allWithoutSpans_eq]

/-- Up to the source of its diagram at this place, the program is one that can be written, and it is
clear. -/
structure Program.Frames (p : Program) (n : Nat) (d : Diagram) : Prop where
  version : p.version.WellFormed
  deck : DeckAlone p.items
  here : p.deckItems[n]? = some (.diagram d)
  config : ∀ e, d.config = some e → e.IsObject
  assets : ∀ e, d.assets = some e → e.IsObject
  others : ∀ m i, m ≠ n → p.deckItems[m]? = some i → i.WellFormed
  clear : p.isClear = true

theorem Program.Frames.wellFormed (h : p.Frames n d)
    (hsource : ∀ s, d.source = some s → s.WellFormed) : p.WellFormed := by
  refine ⟨h.version, wellFormed_of_deckItems fun i hi => ?_, h.deck⟩
  obtain ⟨m, hm⟩ := List.mem_iff_getElem?.1 hi
  by_cases hmn : m = n
  · obtain rfl : Item.diagram d = i := Option.some.inj (h.here.symm.trans (hmn ▸ hm))
    exact .diagram ⟨hsource, h.config, h.assets⟩
  · exact h.others m i hmn hm

/-- Trees that agree without their spans have diagrams with the same source at the same places. -/
theorem Program.diagram_of_withoutSpans {q : Program} (h : q.withoutSpans = p.withoutSpans)
    (hd : p.deckItems[n]? = some (.diagram d)) :
    ∃ e, q.deckItems[n]? = some (.diagram e) ∧ e.source = d.source := by
  have hitems : q.deckItems.map Item.withoutSpans = p.deckItems.map Item.withoutSpans := by
    rw [← deckItems_withoutSpans, ← deckItems_withoutSpans, h]
  have hat := congrArg (·[n]?) hitems
  simp only [List.getElem?_map, hd, Option.map_some, Option.map_eq_some_iff] at hat
  obtain ⟨i, hi, hsame⟩ := hat
  cases i with
  | diagram e =>
    have hsource := congrArg Diagram.source (Item.diagram.inj hsame)
    exact ⟨e, hi, hsource⟩
  | _ => cases hsame

/-! ## Raw blocks are verbatim -/

/-- Whatever a tag encloses, the block is one token with this tag and this body that ends behind the
closing mark, and whatever is wrong with the text stands behind it.  A diagram with the block as its
source is printed and read back with the same source, and so is all that stands around it. -/
theorem raw_blocks_are_verbatim (h : Encloses tag body) :
    (∀ text after, text = rawText tag body ++ after → AtLineEnd after.toList →
      ∃ rest, (lex text).stream = ⟨.heredoc tag body, rawText tag body,
          ⟨.start, .behind (rawText tag body).toList⟩⟩ :: rest ∧
        ∀ d ∈ (lex text).diagnostics,
          utf8Length (rawText tag body).toList ≤ d.span.start.offset) ∧
      ∀ (p : Program) (n : Nat) (d : Diagram), p.Frames n d → d.source = some (.heredoc tag body) →
        ∃ q e, (parse p.print).program = some q ∧ hasErrors (parse p.print).diagnostics = false ∧
          q.deckItems[n]? = some (.diagram e) ∧ e.source = some (.heredoc tag body) ∧
          q.withoutSpans = p.withoutSpans := by
  constructor
  · rintro text after rfl hafter
    have hends : EndsLine after.toList := by
      rcases hafter with hnil | ⟨rest, hline⟩
      · simp [EndsLine, hnil]
      · simp [EndsLine, hline]
    have hmunches := munches_rawBlock h.wellFormed hends
    rw [← toList_rawText] at hmunches
    obtain ⟨s, hlex⟩ := hmunches.lex_eq String.toList_append
    rw [String.ofList_toList] at hlex
    refine ⟨_, by rw [hlex]; rfl, fun d hd => ?_⟩
    rw [hlex] at hd
    obtain ⟨x, hx, -, hspan⟩ := Lexed.exists_piece_of_mem_diagnostics (l := lexFrom s _ _) hd
    rw [← hspan]
    exact (cut_lexFrom s _ _).1.le_start hx
  · intro p n d hframes hsource
    have hwell : p.WellFormed := by
      refine hframes.wellFormed fun s hs => ?_
      obtain rfl : DiagramSource.heredoc tag body = s := Option.some.inj (hsource.symm.trans hs)
      exact h.wellFormed
    obtain ⟨q, hq, hok, hsame⟩ := parse_print hwell hframes.clear
    obtain ⟨e, he, hesource⟩ := Program.diagram_of_withoutSpans hsame hframes.here
    exact ⟨q, e, hq, hok, he, hesource.trans hsource, hsame⟩

/-- Lines that only look like the closing one, and an empty line at the end. -/
def fencedBody : String := "A-->B\r\n M-1>>>\nM-1>>>x\n"

/-- A diagram with this body. -/
def fencedDiagram : Diagram where
  name := some "flow"
  source := some (.heredoc "M-1" fencedBody)
  config := none
  assets := none
  span := default

/-- A deck in which the diagram stands behind metadata. -/
def fencedProgram : Program where
  version := ⟨"1.0", Parse.versionParts "1.0", default⟩
  items := [.deck [.metadata ⟨[], default⟩, .diagram fencedDiagram] default]
  span := default

theorem fencedProgram_frames : fencedProgram.Frames 1 fencedDiagram where
  version := wellFormed_version default
  deck := by
    rintro i rest ⟨⟩ -
    rfl
  here := rfl
  config := by simp [fencedDiagram]
  assets := by simp [fencedDiagram]
  others := by
    rintro (_ | _ | m) i hm hi
    · cases hi
      exact .metadata (by simp [Metadata.WellFormed])
    · exact absurd rfl hm
    · cases hi
  clear := by decide

theorem fencedDiagram_is_verbatim : Encloses "M-1" fencedBody ∧
    fencedProgram.Frames 1 fencedDiagram ∧
    (∃ rest, (lex (rawText "M-1" fencedBody ++ "\n$")).stream =
      ⟨.heredoc "M-1" fencedBody, rawText "M-1" fencedBody,
        ⟨.start, .behind (rawText "M-1" fencedBody).toList⟩⟩ :: rest) ∧
    ∃ q e, (parse fencedProgram.print).program = some q ∧ q.deckItems[1]? = some (.diagram e) ∧
      e.source = some (.heredoc "M-1" fencedBody) := by
  have hbody : Encloses "M-1" fencedBody :=
    ⟨⟨'M', ['-', '1'], by decide, by decide,
      List.forall_mem_cons.2 ⟨by decide, List.forall_mem_singleton.2 (by decide)⟩⟩,
      by decide, by decide⟩
  obtain ⟨hlex, hread⟩ := raw_blocks_are_verbatim hbody
  obtain ⟨rest, hstream, -⟩ := hlex _ "\n$" rfl (.inr ⟨['$'], by decide⟩)
  obtain ⟨q, e, hq, -, he, hsource, -⟩ := hread fencedProgram 1 fencedDiagram fencedProgram_frames rfl
  exact ⟨hbody, fencedProgram_frames, ⟨rest, hstream⟩, q, e, hq, he, hsource⟩

end DiagramTour
