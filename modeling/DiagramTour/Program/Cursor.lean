import DiagramTour.Token.Scan

/-!
# Reading tokens

A `Cursor` is a place in a stream of tokens, together with what was reported on the way.  Reading
never goes back: a `Parsed c α` is a value and a cursor that has no more tokens before it than `c`,
and a `Parse α` is a way to go on from any cursor.  So a loop over tokens ends as soon as each turn
reads one, and the type of a reading function says that it reads none twice.

A construct that is not there is reported and replaced by a placeholder, and a loop whose turn read
nothing skips a token.
-/

namespace DiagramTour

/-- A place in a stream of tokens. -/
structure Cursor where
  /-- The text that the tokens were cut from. -/
  source : List Char
  /-- The tokens that were not read yet. -/
  rest : List Token
  /-- Where the text ends. -/
  stop : Position
  /-- Where the token that was read last ends. -/
  lastStop : Position
  /-- What was reported, in order. -/
  reports : Array Diagnostic

namespace Cursor

/-- How many tokens are left. -/
def size (c : Cursor) : Nat :=
  c.rest.length

/-- The next token, or the end of the text. -/
def peek (c : Cursor) : Token :=
  c.rest.head?.getD (.endAt c.stop)

/-- The token after the next one, or the end of the text. -/
def second (c : Cursor) : Token :=
  c.rest.tail.head?.getD (.endAt c.stop)

/-- Whether all tokens were read. -/
def atEnd (c : Cursor) : Bool :=
  c.rest.isEmpty

/-- Reads the next token, if there is one. -/
def advance (c : Cursor) : Cursor :=
  match c.rest with
  | [] => c
  | t :: ts => { c with rest := ts, lastStop := t.span.stop }

/-- Whether this reserved word comes next. -/
def atKeyword (c : Cursor) (word : String) : Bool :=
  c.peek.isKeyword word

/-- Whether this punctuation mark comes next. -/
def atPunct (c : Cursor) (mark : String) : Bool :=
  c.peek.isPunct mark

/-- Whether this operator comes next. -/
def atOperator (c : Cursor) (op : String) : Bool :=
  c.peek.isOperator op

/-- The place where the next token starts. -/
def here (c : Cursor) : Position :=
  c.peek.span.start

/-- The span from a place up to what was read last; empty if nothing was read since. -/
def spanFrom (c : Cursor) (start : Position) : Span :=
  ⟨start, if c.lastStop.offset < start.offset then start else c.lastStop⟩

/-- Reports a problem. -/
def report (c : Cursor) (problem : Problem) (span : Span) : Cursor :=
  { c with reports := c.reports.push ⟨problem, span⟩ }

/-- Reports that something else was expected here. -/
def unexpected (c : Cursor) (expected : String) : Cursor :=
  if c.atEnd then c.report (.unexpectedEnd expected) c.peek.span
  else c.report (.unexpectedToken expected c.peek.image) c.peek.span

/-- Reads a punctuation mark if it comes next. -/
def eatPunct (c : Cursor) (mark : String) : Cursor :=
  if c.atPunct mark then c.advance else c

/-- Reads a punctuation mark that has to come next. -/
def expectPunct (c : Cursor) (mark : String) : Cursor :=
  if c.atPunct mark then c.advance else c.unexpected (Problem.quoteWord mark)

/-- Reads a reserved word that has to come next. -/
def expectKeyword (c : Cursor) (word : String) : Cursor :=
  if c.atKeyword word then c.advance else c.unexpected (Problem.quoteWord word)

/-- Skips a token after a turn of a loop that read none; reports it unless the turn reported
something, of which there were `before` reports. -/
def recover (c : Cursor) (before : Nat) (context : String) : Cursor :=
  (if c.reports.size = before then c.unexpected context else c).advance

/-! ## Reading never goes back -/

@[simp] theorem size_report (c : Cursor) (p : Problem) (s : Span) :
    (c.report p s).size = c.size := rfl

@[simp] theorem size_unexpected (c : Cursor) (e : String) : (c.unexpected e).size = c.size := by
  unfold unexpected
  split <;> rfl

@[simp] theorem atEnd_unexpected (c : Cursor) (e : String) : (c.unexpected e).atEnd = c.atEnd := by
  unfold unexpected
  split <;> rfl

theorem size_le_self (c : Cursor) : c.size ≤ c.size :=
  Nat.le_refl _

theorem size_report_le (c : Cursor) (p : Problem) (s : Span) : (c.report p s).size ≤ c.size :=
  Nat.le_refl _

theorem size_unexpected_le (c : Cursor) (e : String) : (c.unexpected e).size ≤ c.size :=
  Nat.le_of_eq (c.size_unexpected e)

theorem size_advance (c : Cursor) : c.advance.size = c.size - 1 := by
  unfold advance size
  cases h : c.rest <;> simp [h]

theorem size_advance_le (c : Cursor) : c.advance.size ≤ c.size := by
  rw [size_advance]
  omega

theorem size_pos_of_not_atEnd {c : Cursor} (h : c.atEnd = false) : 0 < c.size := by
  unfold atEnd at h
  unfold size
  cases hr : c.rest with
  | nil => simp [hr] at h
  | cons t ts => simp

theorem size_advance_lt {c : Cursor} (h : c.atEnd = false) : c.advance.size < c.size := by
  have := size_pos_of_not_atEnd h
  rw [size_advance]
  omega

theorem atEnd_eq_false_of_peek {c : Cursor} (h : c.peek.isEnd = false) : c.atEnd = false := by
  unfold peek at h
  unfold atEnd
  cases hr : c.rest with
  | nil => simp [hr, Token.endAt, Token.isEnd] at h
  | cons t ts => simp

theorem atEnd_eq_false_of_isWord {c : Cursor} (h : c.peek.isWord = true) : c.atEnd = false := by
  apply atEnd_eq_false_of_peek
  revert h
  cases c.peek with
  | mk lexeme image span => cases lexeme <;> simp [Token.isWord, Token.isEnd]

theorem atEnd_eq_false_of_isName {c : Cursor} (h : c.peek.isName = true) : c.atEnd = false := by
  apply atEnd_eq_false_of_peek
  revert h
  cases c.peek with
  | mk lexeme image span => cases lexeme <;> simp [Token.isName, Token.isString, Token.isWord,
      Token.isEnd]

theorem atEnd_eq_false_of_atPunct {c : Cursor} {mark : String} (h : c.atPunct mark = true) :
    c.atEnd = false := by
  apply atEnd_eq_false_of_peek
  revert h
  unfold atPunct
  cases c.peek with
  | mk lexeme image span => cases lexeme <;> simp [Token.isPunct, Token.isEnd]

theorem size_advance_lt_of_atPunct {c : Cursor} {mark : String} (h : c.atPunct mark = true) :
    c.advance.size < c.size :=
  size_advance_lt (atEnd_eq_false_of_atPunct h)

theorem not_atEnd_of_not_stop {c : Cursor} {mark : String} (h : ¬(c.atPunct mark || c.atEnd) = true) :
    c.atEnd = false := by
  simp only [Bool.or_eq_true, not_or, Bool.not_eq_true] at h
  exact h.2

theorem atEnd_eq_false_of_atOperator {c : Cursor} {op : String} (h : c.atOperator op = true) :
    c.atEnd = false := by
  apply atEnd_eq_false_of_peek
  revert h
  unfold atOperator
  cases c.peek with
  | mk lexeme image span => cases lexeme <;> simp [Token.isOperator, Token.isEnd]

theorem atEnd_eq_false_of_atKeyword {c : Cursor} {word : String} (h : c.atKeyword word = true) :
    c.atEnd = false := by
  apply atEnd_eq_false_of_peek
  revert h
  unfold atKeyword
  cases c.peek with
  | mk lexeme image span => cases lexeme <;> simp [Token.isKeyword, Token.isEnd]

theorem size_eatPunct_le (c : Cursor) (mark : String) : (c.eatPunct mark).size ≤ c.size := by
  unfold eatPunct
  split
  · exact c.size_advance_le
  · exact Nat.le_refl _

theorem size_expectPunct_le (c : Cursor) (mark : String) : (c.expectPunct mark).size ≤ c.size := by
  unfold expectPunct
  split
  · exact c.size_advance_le
  · simp

theorem size_expectKeyword_le (c : Cursor) (word : String) :
    (c.expectKeyword word).size ≤ c.size := by
  unfold expectKeyword
  split
  · exact c.size_advance_le
  · simp

theorem size_recover_le (c : Cursor) (n : Nat) (context : String) :
    (c.recover n context).size ≤ c.size := by
  unfold recover
  refine Nat.le_trans (size_advance_le _) ?_
  split <;> simp

theorem size_recover_lt {c : Cursor} (h : c.atEnd = false) (n : Nat) (context : String) :
    (c.recover n context).size < c.size := by
  unfold recover
  split
  · exact size_unexpected c context ▸ size_advance_lt (by simpa using h)
  · exact size_advance_lt h

end Cursor

/-! ## Results of reading -/

/-- A value that was read from a cursor on, and the cursor after it. -/
structure Parsed (c : Cursor) (α : Type) where
  value : α
  next : Cursor
  le : next.size ≤ c.size

namespace Parsed

variable {α β : Type} {c : Cursor}

/-- A value for which nothing is read. -/
def here (c : Cursor) (a : α) : Parsed c α :=
  ⟨a, c, c.size_le_self⟩

/-- What was read from a later cursor was read from this one. -/
def weaken {d : Cursor} (r : Parsed d α) (h : d.size ≤ c.size) : Parsed c α :=
  ⟨r.value, r.next, Nat.le_trans r.le h⟩

/-- Changes the value. -/
def map (f : α → β) (r : Parsed c α) : Parsed c β :=
  ⟨f r.value, r.next, r.le⟩

/-- Goes on from where the first part ended. -/
def andThen (r : Parsed c α) (f : (a : α) → (d : Cursor) → d.size ≤ c.size → Parsed d β) :
    Parsed c β :=
  (f r.value r.next r.le).weaken r.le

@[simp] theorem here_value (c : Cursor) (a : α) : (here c a).value = a := rfl
@[simp] theorem here_next (c : Cursor) (a : α) : (here c a).next = c := rfl

@[simp] theorem weaken_value {d : Cursor} (r : Parsed d α) (h : d.size ≤ c.size) :
    (r.weaken h).value = r.value := rfl

@[simp] theorem weaken_next {d : Cursor} (r : Parsed d α) (h : d.size ≤ c.size) :
    (r.weaken h).next = r.next := rfl

@[simp] theorem map_value (f : α → β) (r : Parsed c α) : (r.map f).value = f r.value := rfl
@[simp] theorem map_next (f : α → β) (r : Parsed c α) : (r.map f).next = r.next := rfl

@[simp] theorem andThen_value (r : Parsed c α)
    (f : (a : α) → (d : Cursor) → d.size ≤ c.size → Parsed d β) :
    (r.andThen f).value = (f r.value r.next r.le).value := rfl

@[simp] theorem andThen_next (r : Parsed c α)
    (f : (a : α) → (d : Cursor) → d.size ≤ c.size → Parsed d β) :
    (r.andThen f).next = (f r.value r.next r.le).next := rfl

end Parsed

/-- A way to read a value from any cursor on. -/
def Parse (α : Type) : Type :=
  (c : Cursor) → Parsed c α

namespace Parse

variable {α β : Type}

instance : Monad Parse where
  pure a := fun c => .here c a
  bind p f := fun c => (p c).andThen fun a d _ => f a d

@[simp] theorem pure_apply (a : α) (c : Cursor) : (pure a : Parse α) c = .here c a := rfl

@[simp] theorem bind_apply (p : Parse α) (f : α → Parse β) (c : Cursor) :
    (p >>= f) c = (p c).andThen fun a d _ => f a d := rfl

/-- What the cursor shows. -/
def look (f : Cursor → α) : Parse α :=
  fun c => .here c (f c)

/-- Reads the next token. -/
def next : Parse Token :=
  fun c => ⟨c.peek, c.advance, c.size_advance_le⟩

/-- Reports that something else was expected here. -/
def unexpected (expected : String) : Parse Unit :=
  fun c => ⟨(), c.unexpected expected, c.size_unexpected_le expected⟩

/-- Reports a problem. -/
def report (problem : Problem) (span : Span) : Parse Unit :=
  fun c => ⟨(), c.report problem span, c.size_report_le problem span⟩

/-- Reads a reserved word if it comes next, and tells whether it did. -/
def eatKeyword (word : String) : Parse Bool :=
  fun c =>
    if c.atKeyword word then ⟨true, c.advance, c.size_advance_le⟩ else .here c false

/-- Reads a punctuation mark if it comes next. -/
def eatPunct (mark : String) : Parse Unit :=
  fun c => ⟨(), c.eatPunct mark, c.size_eatPunct_le mark⟩

/-- Reads a punctuation mark that has to come next. -/
def expectPunct (mark : String) : Parse Unit :=
  fun c => ⟨(), c.expectPunct mark, c.size_expectPunct_le mark⟩

/-- Reads a reserved word that has to come next. -/
def expectKeyword (word : String) : Parse Unit :=
  fun c => ⟨(), c.expectKeyword word, c.size_expectKeyword_le word⟩

/-- The place where the next token starts. -/
def start : Parse Position :=
  look Cursor.here

/-- The span from a place up to what was read last. -/
def spanFrom (start : Position) : Parse Span :=
  look (·.spanFrom start)

/-- Reads a word or a quoted text as a name. -/
def name? (what : String) : Parse (Option String) :=
  fun c =>
    if c.peek.isName then ⟨some c.peek.text, c.advance, c.size_advance_le⟩
    else ⟨none, c.unexpected what, c.size_unexpected_le what⟩

/-- Reads a name that may be missing: a word that is not reserved, or a quoted text. -/
def optionalName : Parse (Option String) :=
  fun c =>
    match c.peek.lexeme with
    | .identifier | .string _ => ⟨some c.peek.text, c.advance, c.size_advance_le⟩
    | _ => .here c none

/-- Reads a quoted text that may be missing. -/
def optionalString : Parse (Option String) :=
  fun c =>
    if c.peek.isString then ⟨some c.peek.text, c.advance, c.size_advance_le⟩ else .here c none

end Parse

/-! ## Blocks -/

namespace Cursor

variable {α : Type}

/-- The opening brace of a block. -/
def openBrace : String := "\x7b"

/-- The closing brace of a block. -/
def closeBrace : String := "\x7d"

/-- The cursor after a turn of a loop that began with as many tokens and reports as `c` has: a turn
that read nothing is made to skip a token. -/
def afterTurn (c next : Cursor) (context : String) : Cursor :=
  if next.size = c.size then next.recover c.reports.size context else next

theorem size_afterTurn_lt {c next : Cursor} (h : c.atEnd = false) (hle : next.size ≤ c.size)
    (context : String) : (c.afterTurn next context).size < c.size := by
  unfold afterTurn
  split
  · rename_i heq
    have hpos := size_pos_of_not_atEnd h
    have hnext : next.atEnd = false := by
      unfold atEnd
      unfold size at heq hpos
      cases hr : next.rest with
      | nil => rw [hr] at heq; simp at heq; omega
      | cons t ts => rfl
    exact heq ▸ size_recover_lt hnext _ _
  · rename_i hne
    omega

/-- The items up to the closing brace or the end of the text. -/
def blockItems (bound : Nat) (context : String)
    (item : (d : Cursor) → d.size < bound → Parsed d (Option α)) (c : Cursor)
    (h : c.size < bound) : Parsed c (List α) :=
  if hstop : c.atPunct closeBrace || c.atEnd then .here c []
  else
    let turn := item c h
    have hend : c.atEnd = false := by
      simp only [Bool.or_eq_true, not_or, Bool.not_eq_true] at hstop
      exact hstop.2
    have hlt := size_afterTurn_lt hend turn.le context
    let tail := blockItems bound context item (c.afterTurn turn.next context) (Nat.lt_trans hlt h)
    (tail.map fun items => match turn.value with
      | some a => a :: items
      | none => items).weaken (Nat.le_of_lt hlt)
termination_by c.size

/-- The items between two braces; none if the opening one is missing. -/
def block (context : String) (c : Cursor)
    (item : (d : Cursor) → d.size < c.size → Parsed d (Option α)) : Parsed c (List α) :=
  if h : c.atPunct openBrace then
    -- At the end of the text the closing brace is missed here
    have hlt := size_advance_lt_of_atPunct h
    let body := blockItems c.size context item c.advance hlt
    ⟨body.value, body.next.expectPunct closeBrace,
      Nat.le_trans (size_expectPunct_le _ _) (Nat.le_trans body.le (Nat.le_of_lt hlt))⟩
  else ⟨[], c.unexpected (Problem.quoteWord openBrace), by simp⟩

end Cursor

/-- The items between two braces. -/
def Parse.block {α : Type} (context : String) (item : Parse (Option α)) : Parse (List α) :=
  fun c => c.block context fun d _ => item d

end DiagramTour
