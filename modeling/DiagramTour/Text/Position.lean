/-!
# Places in a source text

A place is given three ways at once: by the number of UTF-8 bytes before it, by its line, and by
its column counted in characters.  The last two follow from the characters before the place, so
the only way to move is `Position.next`, one character at a time.
-/

namespace DiagramTour

/-- A place in a source text; lines and columns count from one. -/
structure Position where
  /-- UTF-8 bytes before the place. -/
  offset : Nat
  /-- Line, counted from one. -/
  line : Nat
  /-- Column in characters, counted from one. -/
  column : Nat
deriving DecidableEq, Repr, Inhabited

namespace Position

/-- The place of the first character. -/
def start : Position := ⟨0, 1, 1⟩

/-- The place after one more character: a line feed opens a new line. -/
def next (p : Position) (c : Char) : Position :=
  if c = '\n' then ⟨p.offset + c.utf8Size, p.line + 1, 1⟩
  else ⟨p.offset + c.utf8Size, p.line, p.column + 1⟩

/-- The place after a run of characters. -/
def advance (p : Position) (cs : List Char) : Position :=
  cs.foldl next p

@[simp] theorem advance_nil (p : Position) : p.advance [] = p := rfl

@[simp] theorem advance_cons (p : Position) (c : Char) (cs : List Char) :
    p.advance (c :: cs) = (p.next c).advance cs := rfl

theorem advance_append (p : Position) (as bs : List Char) :
    p.advance (as ++ bs) = (p.advance as).advance bs := by
  simp [advance]

end Position

/-- The bytes that a run of characters takes in UTF-8. -/
def utf8Length : List Char → Nat
  | [] => 0
  | c :: cs => c.utf8Size + utf8Length cs

@[simp] theorem utf8Length_nil : utf8Length [] = 0 := rfl

@[simp] theorem utf8Length_cons (c : Char) (cs : List Char) :
    utf8Length (c :: cs) = c.utf8Size + utf8Length cs := rfl

theorem utf8Length_append (as bs : List Char) :
    utf8Length (as ++ bs) = utf8Length as + utf8Length bs := by
  induction as with
  | nil => simp
  | cons c as ih => simp [ih, Nat.add_assoc]

/-- The offset grows by the bytes passed. -/
theorem Position.offset_advance (p : Position) (cs : List Char) :
    (p.advance cs).offset = p.offset + utf8Length cs := by
  induction cs generalizing p with
  | nil => simp
  | cons c cs ih =>
    rw [advance_cons, ih, utf8Length_cons, ← Nat.add_assoc]
    congr 1
    unfold next
    split <;> rfl

/-- The characters left after `n` bytes; a character that straddles the cut is dropped. -/
def dropBytes : Nat → List Char → List Char
  | 0, cs => cs
  | _ + 1, [] => []
  | n + 1, c :: cs => dropBytes (n + 1 - c.utf8Size) cs

/-- The characters that lie wholly within the first `n` bytes. -/
def takeBytes : Nat → List Char → List Char
  | _, [] => []
  | n, c :: cs => if c.utf8Size ≤ n then c :: takeBytes (n - c.utf8Size) cs else []

/-- The part of a text between two byte offsets. -/
def slice (cs : List Char) (start stop : Nat) : List Char :=
  takeBytes (stop - start) (dropBytes start cs)

@[simp] theorem dropBytes_zero (cs : List Char) : dropBytes 0 cs = cs := by
  cases cs <;> rfl

theorem dropBytes_append (as bs : List Char) : dropBytes (utf8Length as) (as ++ bs) = bs := by
  induction as with
  | nil => simp
  | cons c as ih =>
    have hpos : 0 < c.utf8Size := c.utf8Size_pos
    obtain ⟨k, hk⟩ : ∃ k, utf8Length (c :: as) = k + 1 := ⟨c.utf8Size + utf8Length as - 1, by
      rw [utf8Length_cons]; omega⟩
    rw [hk, List.cons_append, dropBytes, ← hk, utf8Length_cons, Nat.add_sub_cancel_left, ih]

theorem takeBytes_append (as bs : List Char) : takeBytes (utf8Length as) (as ++ bs) = as := by
  induction as with
  | nil =>
    cases bs with
    | nil => rfl
    | cons c bs =>
      have : ¬ c.utf8Size ≤ 0 := Nat.not_le.2 c.utf8Size_pos
      simp [takeBytes, this]
  | cons c as ih => simp [takeBytes, ih]

/-- A slice between the offsets of a middle part is that part. -/
theorem slice_append (as bs cs : List Char) :
    slice (as ++ (bs ++ cs)) (utf8Length as) (utf8Length as + utf8Length bs) = bs := by
  rw [slice, dropBytes_append, Nat.add_sub_cancel_left, takeBytes_append]

/-- The part of a source text from one place up to another. -/
structure Span where
  /-- First place covered. -/
  start : Position
  /-- The place just past what is covered. -/
  stop : Position
deriving DecidableEq, Repr, Inhabited

namespace Span

/-- The empty span at a place. -/
def point (p : Position) : Span := ⟨p, p⟩

/-- From the start of one span to the end of another. -/
def through (s t : Span) : Span := ⟨s.start, t.stop⟩

end Span

end DiagramTour
