import DiagramTour.Proofs.Program.Outset
import DiagramTour.Proofs.Program.Rounds
import DiagramTour.Proofs.Program.YieldsProgram

/-!
# Reading comes to an end

Whatever a text holds, it is read to an end: the readers work in rounds, each on fewer tokens or at a
tighter level, and they read on from token to token without ever leaving the stream of tokens that
the text was cut into.  A text has a program as soon as its first token is the right word, and one
that has none has an error.

## Architecture

- `ReadsInRounds` lists all loops and all readers that call themselves, with their rounds.
- `ReadsOn` says that the readers only move forward.
- `Cursor.Inside` says where in the stream of tokens a cursor looks.
- `parse_total` puts them together.
-/

namespace DiagramTour

open Cursor (Onward)

variable {source : String} {c : Cursor}

/-! ## Rounds -/

/-- All loops of the readers, and all readers that call themselves, work in rounds. -/
structure ReadsInRounds : Prop where
  blocks {α : Type} (bound : Nat) (context : String)
    (item : (d : Cursor) → d.size < bound → Parsed d (Option α)) :
    (Cursor.blockRound context item).Drives (fun c => c.1.size)
      fun c => Cursor.blockItems bound context item c.1 c.2
  /-- Lists and arguments. -/
  lists {α : Type} (bound : Nat) (close expected : String)
    (item : (d : Cursor) → d.size < bound → Parsed d α) :
    (Cursor.separatedRound close expected item).Drives (fun c => c.1.size)
      fun c => Cursor.separated bound close expected item c.1 c.2
  targetLists (bound : Nat) (item : (d : Cursor) → d.size < bound → Parsed d Target) :
    (Cursor.targetItemsRound item).Drives (fun c => c.1.size)
      fun c => Cursor.targetItems bound item c.1 c.2
  focusSettings : Parse.focusRound.Drives (fun i => i.2.size) fun i => Parse.focusSettings i.1 i.2
  paths : Cursor.pathRound.Drives Cursor.size Cursor.pathTail
  callees : Cursor.calleeRound.Drives Cursor.size Cursor.calleeTail
  operators (bound level : Nat) (operand : (d : Cursor) → d.size < bound → Parsed d Expr) :
    (Cursor.operatorsRound level operand).Drives (fun i => i.2.1.size)
      fun i => Cursor.operators bound level operand i.1 i.2.1 i.2.2
  versions : Parse.versionRound.Drives Cursor.size Parse.versionTail
  unknownBlocks :
    Parse.balancedRound.Drives (fun i => i.2.2.size) fun i => Parse.balanced i.1 i.2.1 i.2.2
  unknownLines (line : Nat) :
    (Parse.restOfLineRound line).Drives (fun i => i.2.size) fun i => Parse.restOfLine line i.1 i.2
  declarations :
    Cursor.itemsRound.Drives (fun i => i.2.2.size) fun i => Cursor.items i.1 i.2.1 i.2.2
  exprs : Cursor.exprRound.Drives Cursor.exprRank fun i => i.2.exprAt i.1
  targets : Cursor.targetRound.Drives Cursor.size Cursor.target
  items : Cursor.itemRound.Drives Cursor.size Cursor.item

theorem readsInRounds : ReadsInRounds where
  blocks _ context item := Cursor.blockRound_drives context item
  lists _ close expected item := Cursor.separatedRound_drives close expected item
  targetLists _ item := Cursor.targetItemsRound_drives item
  focusSettings := Parse.focusRound_drives
  paths := Cursor.pathRound_drives
  callees := Cursor.calleeRound_drives
  operators _ level operand := Cursor.operatorsRound_drives level operand
  versions := Parse.versionRound_drives
  unknownBlocks := Parse.balancedRound_drives
  unknownLines line := Parse.restOfLineRound_drives line
  declarations := Cursor.itemsRound_drives
  exprs := Cursor.exprRound_drives
  targets := Cursor.targetRound_drives
  items := Cursor.itemRound_drives

/-! ## Reading on -/

/-- Readers read on from where they begin. -/
structure ReadsOn : Prop where
  expr (level : Nat) (c : Cursor) : Onward c (c.exprAt level).next
  target (c : Cursor) : Onward c c.target.next
  item (c : Cursor) : Onward c c.item.next
  items (first afterDeck : Bool) (c : Cursor) : Onward c (c.items first afterDeck).next
  program (c : Cursor) : Onward c (Parse.program? c).next

theorem readsOn : ReadsOn where
  expr level c := (Cursor.yields_exprAt level c).onward
  target c := (Cursor.yields_target c).onward
  item c := (Cursor.yields_item c).onward
  items first afterDeck c := (Cursor.yields_items first afterDeck c).onward
  program c := (Parse.Yields.program? c).onward

/-! ## The stream of tokens -/

/-- The tokens of a text with the mark of its end behind them. -/
def tokenStream (source : String) : List Token :=
  (lex source).tokens ++ [.endAt (lex source).stop]

/-- The place of the next token in the stream. -/
def Cursor.place (source : String) (c : Cursor) : Nat :=
  (lex source).tokens.length - c.size

/-- The cursor looks at tokens of the stream, at the next one and at the one behind it; at its end it
looks at the mark of the end. -/
structure Cursor.Inside (source : String) (c : Cursor) : Prop where
  place : c.place source < (tokenStream source).length
  peek : (tokenStream source)[c.place source]? = some c.peek
  second : (tokenStream source)[min (c.place source + 1) ((tokenStream source).length - 1)]? =
    some c.second

theorem length_tokenStream (source : String) :
    (tokenStream source).length = (lex source).tokens.length + 1 := by
  simp [tokenStream]

/-- What a cursor shows after some tokens is in the stream, which ends with the mark of the end. -/
theorem tokenStream_min (source : String) (n : Nat) :
    (tokenStream source)[min n (lex source).tokens.length]? =
      some (((lex source).tokens.drop n).head?.getD (.endAt (lex source).stop)) := by
  rw [tokenStream, List.head?_drop]
  rcases Nat.lt_or_ge n (lex source).tokens.length with hn | hn
  · rw [Nat.min_eq_left (Nat.le_of_lt hn), List.getElem?_append_left hn, List.getElem?_eq_getElem hn]
    rfl
  · rw [Nat.min_eq_right hn, List.getElem?_concat_length, List.getElem?_eq_none hn]
    rfl

/-- Wherever reading on from the first token leads is inside the stream. -/
theorem Cursor.Onward.inside (h : Onward (.outset source) c) : c.Inside source := by
  obtain ⟨-, hstop, ⟨n, hrest⟩, -⟩ := h
  have hstop : c.stop = (lex source).stop := hstop
  have hrest : c.rest = (lex source).tokens.drop n := hrest
  -- So many tokens were read, or all if there are fewer
  have hplace : c.place source = min n (lex source).tokens.length := by
    simp only [place, size, hrest, List.length_drop]
    omega
  refine ⟨?_, ?_, ?_⟩
  · rw [hplace, length_tokenStream]
    omega
  · rw [hplace, tokenStream_min, peek, hrest, hstop]
  · have hsecond : min (c.place source + 1) ((tokenStream source).length - 1) =
        min (n + 1) (lex source).tokens.length := by
      rw [hplace, length_tokenStream]
      omega
    rw [hsecond, tokenStream_min, second, hrest, hstop, List.tail_drop]

/-! ## Reading texts -/

/-- What is known of reading a text, whatever it holds. -/
structure ReadsSafely (source : String) : Prop where
  program : (parse source).program.isSome = true ↔
    ∃ t, (tokenStream source)[0]? = some t ∧ t.isKeyword "mpd" = true
  reported : (parse source).program = none → hasErrors (parse source).diagnostics = true
  inside : ∀ c, Onward (.outset source) c → c.Inside source

/-- Reading is total: it works in rounds that come to an end, moves forward only, stays inside the
stream of tokens, and gives a program exactly for texts that begin as one. -/
theorem parse_total : ReadsInRounds ∧ ReadsOn ∧ ∀ source, ReadsSafely source := by
  refine ⟨readsInRounds, readsOn, fun source =>
    ⟨?_, hasErrors_of_program_eq_none, fun _ h => h.inside⟩⟩
  have hfirst : (tokenStream source)[0]? = some (Cursor.outset source).peek := by
    have h := tokenStream_min source 0
    rwa [Nat.zero_min, List.drop_zero] at h
  rw [parse_isSome_eq, hfirst, Cursor.atKeyword]
  refine ⟨fun h => ⟨_, rfl, h⟩, ?_⟩
  rintro ⟨t, ht, h⟩
  rwa [Option.some.inj ht]

end DiagramTour
