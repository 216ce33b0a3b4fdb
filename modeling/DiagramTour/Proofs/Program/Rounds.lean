import DiagramTour.Program.Parse.Item

/-!
# Reading in rounds

Every loop of the readers and every reader that calls itself is described by one round of it: what is
done in one place, given what is done in the places that the round may go on to.  The type of a
round says which these are, so a loop can only go round again with fewer tokens, and an expression
can only be read inside another with fewer tokens, or at a tighter level.  Therefore rounds within
rounds come to an end, and how deep they go is known beforehand.

## Architecture

- `Round` is one round, `Round.nest` so many within each other, and `Round.Drives` says that a
  reader is nothing but its rounds, and never deeper than its rank.
- One round for each loop, and one for each reader that calls itself, with the proof that it drives
  the reader.
-/

namespace DiagramTour

/-- One round of a reader: what it gives in one place, from what it gives in the places below. -/
def Round {ι : Type} (below : ι → ι → Prop) (β : ι → Type) : Type :=
  (i : ι) → ((j : ι) → below j i → β j) → β i

namespace Round

variable {ι : Type} {below : ι → ι → Prop} {β : ι → Type} {rank : ι → Nat} {f : (i : ι) → β i}

/-- So many rounds within each other; `cut` stands for all that lies deeper. -/
def nest (r : Round below β) (cut : (i : ι) → β i) : Nat → (i : ι) → β i
  | 0, i => cut i
  | n + 1, i => r i fun j _ => r.nest cut n j

/-- The reader is its round with itself in it, and whatever stands for what lies deeper than its
rank is never asked. -/
structure Drives (r : Round below β) (rank : ι → Nat) (f : (i : ι) → β i) : Prop where
  round : ∀ i, f i = r i fun j _ => f j
  ends : ∀ (cut : (i : ι) → β i) (n : Nat) (i : ι), rank i < n → r.nest cut n i = f i

/-- A reader that is its round with itself in it is driven by it, if the rank falls. -/
theorem drives {r : Round below β} (hrank : ∀ i j, below j i → rank j < rank i)
    (hround : ∀ i, f i = r i fun j _ => f j) : r.Drives rank f where
  round := hround
  ends cut n i hn := by
    induction n generalizing i with
    | zero => omega
    | succ n ih =>
      rw [nest, hround i]
      -- What lies below has a smaller rank, so that less depth is enough for it
      congr 1
      funext j hj
      exact ih j (by have := hrank i j hj; omega)

end Round

/-! ## Fewer tokens -/

namespace Cursor

variable {b c d : Cursor}

/-- The first cursor has fewer tokens left than the second. -/
def Fewer (d c : Cursor) : Prop :=
  d.size < c.size

theorem Fewer.of_le (h : c.Fewer b) (hle : d.size ≤ c.size) : d.Fewer b :=
  Nat.lt_of_le_of_lt hle h

theorem Fewer.le_of (h : d.Fewer c) (hle : c.size ≤ b.size) : d.Fewer b :=
  Nat.lt_of_lt_of_le h hle

theorem fewer_advance (h : c.atEnd = false) : c.advance.Fewer c :=
  size_advance_lt h

theorem fewer_advance_of_atPunct {mark : String} (h : c.atPunct mark = true) :
    c.advance.Fewer c :=
  fewer_advance (atEnd_eq_false_of_atPunct h)

theorem fewer_advance_of_atKeyword {word : String} (h : c.atKeyword word = true) :
    c.advance.Fewer c :=
  fewer_advance (atEnd_eq_false_of_atKeyword h)

theorem fewer_afterTurn (h : c.atEnd = false) (hle : d.size ≤ c.size) (context : String) :
    (c.afterTurn d context).Fewer c :=
  size_afterTurn_lt h hle context

/-- What was read where fewer tokens are left was read here. -/
def Fewer.read {α : Type} (h : d.Fewer c) (p : Parsed d α) : Parsed c α :=
  p.weaken (Nat.le_of_lt h)

/-- A cursor with less than so many tokens. -/
abbrev Within (bound : Nat) : Type :=
  { c : Cursor // c.size < bound }

/-- A cursor with fewer tokens yet. -/
abbrev Within.onto {bound : Nat} (c : Within bound) (d : Cursor) (h : d.Fewer c.1) : Within bound :=
  ⟨d, Nat.lt_trans h c.2⟩

/-! ## Loops over blocks and lists -/

variable {α : Type} {bound : Nat}

/-- One item of a block. -/
def blockRound (context : String) (item : (d : Cursor) → d.size < bound → Parsed d (Option α)) :
    Round (fun d c : Within bound => d.1.Fewer c.1) fun c => Parsed c.1 (List α) :=
  fun c again =>
    if hstop : c.1.atPunct closeBrace || c.1.atEnd then .here c.1 []
    else
      let turn := item c.1 c.2
      have hlt := fewer_afterTurn (not_atEnd_of_not_stop hstop) turn.le context
      (hlt.read (again (c.onto (c.1.afterTurn turn.next context) hlt) hlt)).map fun items =>
        match turn.value with
        | some a => a :: items
        | none => items

theorem blockRound_drives (context : String)
    (item : (d : Cursor) → d.size < bound → Parsed d (Option α)) :
    (blockRound context item).Drives (fun c => c.1.size)
      fun c => blockItems bound context item c.1 c.2 :=
  Round.drives (fun _ _ h => h) fun c => by
    rw [blockItems]
    rfl

/-- One item of a list. -/
def separatedRound (close expected : String) (item : (d : Cursor) → d.size < bound → Parsed d α) :
    Round (fun d c : Within bound => d.1.Fewer c.1) fun c => Parsed c.1 (List α) :=
  fun c again =>
    if c.1.atPunct close || c.1.atEnd then .here c.1 []
    else
      let turn := item c.1 c.2
      if hsep : turn.next.atPunct "," then
        have hlt := (fewer_advance_of_atPunct hsep).le_of turn.le
        (hlt.read (again (c.onto turn.next.advance hlt) hlt)).map (turn.value :: ·)
      else if turn.next.atPunct close then ⟨[turn.value], turn.next, turn.le⟩
      else
        let reported := turn.next.unexpected expected
        have hle : reported.size ≤ c.1.size := by simpa [reported] using turn.le
        if turn.next.size = c.1.size then
          ⟨[turn.value], reported.advance, Nat.le_trans (size_advance_le _) hle⟩
        else ⟨[turn.value], reported, hle⟩

theorem separatedRound_drives (close expected : String)
    (item : (d : Cursor) → d.size < bound → Parsed d α) :
    (separatedRound close expected item).Drives (fun c => c.1.size)
      fun c => separated bound close expected item c.1 c.2 :=
  Round.drives (fun _ _ h => h) fun c => by
    rw [separated]
    rfl

/-- One target of a list. -/
def targetItemsRound (item : (d : Cursor) → d.size < bound → Parsed d Target) :
    Round (fun d c : Within bound => d.1.Fewer c.1) fun c => Parsed c.1 (List Target) :=
  fun c again =>
    if hstop : c.1.atPunct ")" || c.1.atEnd then .here c.1 []
    else
      let turn := item c.1 c.2
      if turn.next.size = c.1.size then
        have hlt := fewer_afterTurn (not_atEnd_of_not_stop hstop) turn.le "a target"
        (hlt.read (again (c.onto (c.1.afterTurn turn.next "a target") hlt) hlt)).map
          (turn.value :: ·)
      else if hsep : turn.next.atPunct "," then
        have hlt := (fewer_advance_of_atPunct hsep).le_of turn.le
        (hlt.read (again (c.onto turn.next.advance hlt) hlt)).map (turn.value :: ·)
      else if turn.next.atPunct ")" then ⟨[turn.value], turn.next, turn.le⟩
      else ⟨[turn.value], turn.next.unexpected "`,` or `)`", by simpa using turn.le⟩

theorem targetItemsRound_drives (item : (d : Cursor) → d.size < bound → Parsed d Target) :
    (targetItemsRound item).Drives (fun c => c.1.size)
      fun c => targetItems bound item c.1 c.2 :=
  Round.drives (fun _ _ h => h) fun c => by
    rw [targetItems]
    rfl

/-! ## Loops in expressions -/

/-- One point and segment of a path. -/
def pathRound : Round Fewer fun c => Parsed c (List String) :=
  fun c again =>
    if h : c.atPunct "." then
      let segment := Parse.segment? "a path segment" c.advance
      have hlt := (fewer_advance_of_atPunct h).of_le segment.le
      match segment.value with
      | some s => hlt.read ((again segment.next hlt).map (s :: ·))
      | none => hlt.read (.here segment.next [])
    else .here c []

theorem pathRound_drives : pathRound.Drives size pathTail :=
  Round.drives (fun _ _ h => h) fun c => by
    rw [pathTail]
    rfl

/-- One point and word of the name of an action. -/
def calleeRound : Round Fewer fun c => Parsed c (List String) :=
  fun c again =>
    if h : c.atPunct "." && c.second.isWord then
      have hlt := (fewer_advance_of_atPunct (Bool.and_eq_true_iff.1 h).1).of_le
        c.advance.size_advance_le
      hlt.read ((again c.advance.advance hlt).map (c.second.image :: ·))
    else .here c []

theorem calleeRound_drives : calleeRound.Drives size calleeTail :=
  Round.drives (fun _ _ h => h) fun c => by
    rw [calleeTail]
    rfl

/-- A left operand, and the cursor after it. -/
abbrev LeftOperand (bound : Nat) : Type :=
  Expr × { c : Cursor // c.size ≤ bound }

/-- One operator of a level with its right operand. -/
def operatorsRound (level : Nat) (operand : (d : Cursor) → d.size < bound → Parsed d Expr) :
    Round (fun j i : LeftOperand bound => j.2.1.Fewer i.2.1) fun i => Parsed i.2.1 Expr :=
  fun i again =>
    match h : i.2.1.operatorAt? level with
    | none => .here i.2.1 i.1
    | some op =>
      have hlt := size_advance_lt (atEnd_eq_false_of_operatorAt? h)
      let right := operand i.2.1.advance (Nat.lt_of_lt_of_le hlt i.2.2)
      have hnext : right.next.Fewer i.2.1 := Nat.lt_of_le_of_lt right.le hlt
      let joined := Expr.binary op i.1 right.value (i.1.span.through right.value.span)
      hnext.read (again ⟨joined, right.next, Nat.le_trans (Nat.le_of_lt hnext) i.2.2⟩ hnext)

theorem operatorsRound_drives (level : Nat)
    (operand : (d : Cursor) → d.size < bound → Parsed d Expr) :
    (operatorsRound level operand).Drives (fun i => i.2.1.size)
      fun i => operators bound level operand i.1 i.2.1 i.2.2 :=
  Round.drives (fun _ _ h => h) fun i => by
    rw [operators]
    rfl

/-! ## Readers that call themselves -/

/-- Where an expression may be read inside another: with fewer tokens, or at a tighter level. -/
def ExprBelow (j i : Nat × Cursor) : Prop :=
  j.2.Fewer i.2 ∨ j.2 = i.2 ∧ i.1 < j.1 ∧ j.1 ≤ topLevel

/-- How deep an expression can be read inside others. -/
def exprRank (i : Nat × Cursor) : Nat :=
  7 * i.2.size + (topLevel - i.1)

/-- An expression at a level, given the expressions in it. -/
def exprRound : Round ExprBelow fun i => Parsed i.2 Expr :=
  fun ⟨level, c⟩ again =>
    if h : level < topLevel then
      (again (level + 1, c) (.inr ⟨rfl, Nat.lt_succ_self level, h⟩)).andThen fun left d hd =>
        operators c.size level (fun e he => again (level + 1, e) (.inl he)) left d hd
    else
      c.unaryWith (fun d hd => again (topLevel, d) (.inl hd)) fun d hd => again (0, d) (.inl hd)

theorem exprRound_drives : exprRound.Drives exprRank fun i => i.2.exprAt i.1 := by
  refine Round.drives (fun i j h => ?_) fun i => ?_
  · rcases h with h | ⟨h, hlt, hle⟩
    · simp only [Fewer] at h
      simp only [exprRank, topLevel]
      omega
    · simp only [exprRank, h, topLevel] at hle ⊢
      omega
  · obtain ⟨level, c⟩ := i
    rw [exprAt]
    rfl

/-- A target, given the targets in it. -/
def targetRound : Round Fewer fun c => Parsed c Target :=
  fun c again =>
    match h : c.targetHead? with
    | none =>
      ⟨.placeholder (.point c.here), c.unexpected
        "a target (node, edge, subgraph, css, id, text, group, union, intersect, except)",
        c.size_unexpected_le _⟩
    | some head =>
      have hlt := fewer_advance (atEnd_eq_false_of_targetHead? h)
      let start := c.here
      hlt.read <| match head with
        | .element kind => (Parse.elementRef c.advance).andThen fun ref e _ =>
            .here e (.element kind ref (e.spanFrom start))
        | .edge => (Parse.edgeRef c.advance).andThen fun ref e _ =>
            .here e (.edge ref (e.spanFrom start))
        | .matching key => (Parse.targetText c.advance).andThen fun text e _ =>
            .here e (.matching key text (e.spanFrom start))
        | .several how =>
          (c.advance.targetList fun e he => again e (hlt.of_le (Nat.le_of_lt he))).andThen
            fun members e _ => .here e (.several how members (e.spanFrom start))
        | .except =>
          (c.advance.targetList fun e he => again e (hlt.of_le (Nat.le_of_lt he))).andThen
            fun operands e _ => e.difference start operands

theorem targetRound_drives : targetRound.Drives size target :=
  Round.drives (fun _ _ h => h) fun c => by
    rw [target]
    rfl

/-- A declaration, given the declarations in it. -/
def itemRound : Round Fewer fun c => Parsed c (Option Item) :=
  fun c again =>
    if h : c.atKeyword "deck" then
      have hlt := fewer_advance_of_atKeyword h
      hlt.read <| (c.advance.block "a deck declaration" fun d hd =>
        again d (hlt.of_le (Nat.le_of_lt hd))).andThen fun items e _ =>
          .here e (some (.deck items (e.spanFrom c.here)))
    else
      match c.peek.lexeme with
      | .keyword => (Parse.itemOfWord c.peek.image c).map some
      | .identifier => (Parse.unknownBlock c).map fun u => some (.unknown u)
      | _ => .here c none

theorem itemRound_drives : itemRound.Drives size item :=
  Round.drives (fun _ _ h => h) fun c => by
    rw [item]
    rfl

/-- One declaration at the top, with whether it may be a deck that comes first and whether such a deck
came before. -/
def itemsRound : Round (fun j i : Bool × Bool × Cursor => j.2.2.Fewer i.2.2)
    fun i => Parsed i.2.2 (List Item) :=
  fun ⟨first, afterDeck, c⟩ again =>
    if hstop : c.atEnd then .here c []
    else
      let d := if afterDeck then c.unexpected "end of input after `deck` block" else c
      let turn := d.item
      have hlt := fewer_afterTurn (by simpa using hstop)
        (Nat.le_trans turn.le (by simp only [d]; split <;> simp)) "a declaration"
      (hlt.read (again (first && turn.value.isNone, first && d.atKeyword "deck",
        c.afterTurn turn.next "a declaration") hlt)).map (turn.value.toList ++ ·)

theorem itemsRound_drives : itemsRound.Drives (fun i => i.2.2.size) fun i => items i.1 i.2.1 i.2.2 :=
  Round.drives (fun _ _ h => h) fun i => by
    rw [items]
    rfl

end Cursor

namespace Parse

open Cursor (Fewer fewer_advance fewer_advance_of_atPunct fewer_advance_of_atKeyword)

/-! ## Loops over settings, versions and what is not understood -/

/-- One setting of a focus. -/
def focusRound : Round (fun j i : Focus × Cursor => j.2.Fewer i.2) fun i => Parsed i.2 Focus :=
  fun ⟨focus, c⟩ again =>
    if h : c.atKeyword "pad" then
      let value := expr c.advance
      have hlt := (fewer_advance_of_atKeyword h).of_le value.le
      hlt.read (again ({ focus with pad := some value.value }, value.next) hlt)
    else if h : c.atKeyword "align" then
      let value := name? "an alignment" c.advance
      have hlt := (fewer_advance_of_atKeyword h).of_le value.le
      hlt.read (again ({ focus with align := value.value }, value.next) hlt)
    else if h : c.atKeyword "lock" then
      let value := expr c.advance
      have hlt := (fewer_advance_of_atKeyword h).of_le value.le
      hlt.read (again ({ focus with lock := some value.value }, value.next) hlt)
    else .here c focus

theorem focusRound_drives : focusRound.Drives (fun i => i.2.size) fun i => focusSettings i.1 i.2 :=
  Round.drives (fun _ _ h => h) fun i => by
    rw [focusSettings]
    rfl

/-- One point and number of a version. -/
def versionRound : Round Fewer fun c => Parsed c String :=
  fun c again =>
    if h : c.atPunct "." && versionTail.isVersionPart c.second then
      have hlt := (fewer_advance_of_atPunct (Bool.and_eq_true_iff.1 h).1).of_le
        c.advance.size_advance_le
      hlt.read ((again c.advance.advance hlt).map ("." ++ c.second.image ++ ·))
    else .here c ""

theorem versionRound_drives : versionRound.Drives Cursor.size versionTail :=
  Round.drives (fun _ _ h => h) fun c => by
    rw [versionTail]
    rfl

/-- One token of a block that is not understood, with how many braces are open and where what was
read ends so far. -/
def balancedRound : Round (fun j i : Nat × Nat × Cursor => j.2.2.Fewer i.2.2)
    fun i => Parsed i.2.2 Nat :=
  fun ⟨depth, stop, c⟩ again =>
    if h : c.atEnd then ⟨stop, c.unexpected "`\x7d`", c.size_unexpected_le _⟩
    else
      have hlt := fewer_advance (c := c) (by simpa using h)
      let stop := c.peek.span.stop.offset
      if c.atPunct Cursor.openBrace then hlt.read (again (depth + 1, stop, c.advance) hlt)
      else if c.atPunct Cursor.closeBrace then
        if depth = 1 then hlt.read (.here c.advance stop)
        else hlt.read (again (depth - 1, stop, c.advance) hlt)
      else hlt.read (again (depth, stop, c.advance) hlt)

theorem balancedRound_drives :
    balancedRound.Drives (fun i => i.2.2.size) fun i => balanced i.1 i.2.1 i.2.2 :=
  Round.drives (fun _ _ h => h) fun i => by
    rw [balanced]
    rfl

/-- One token of a line that is not understood, with where what was read ends so far. -/
def restOfLineRound (line : Nat) : Round (fun j i : Nat × Cursor => j.2.Fewer i.2)
    fun i => Parsed i.2 Nat :=
  fun ⟨stop, c⟩ again =>
    if h : c.atEnd then .here c stop
    else if c.here.line = line then
      have hlt := fewer_advance (c := c) (by simpa using h)
      hlt.read (again (c.peek.span.stop.offset, c.advance) hlt)
    else .here c stop

theorem restOfLineRound_drives (line : Nat) :
    (restOfLineRound line).Drives (fun i => i.2.size) fun i => restOfLine line i.1 i.2 :=
  Round.drives (fun _ _ h => h) fun i => by
    rw [restOfLine]
    rfl

end Parse

end DiagramTour
