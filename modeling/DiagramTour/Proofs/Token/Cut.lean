import DiagramTour.Proofs.Token.RawBlock

/-!
# Cutting one piece off a text

A text is cut into pieces from the front: blanks and comments are skipped, and what stands behind
them is one token, or one character that begins none.
-/

namespace DiagramTour

variable {s : Bool} {p : Position} {m : Munch} {c : Char} {cs im rest : List Char}
  {lexeme : Lexeme}

/-! ## Places -/

theorem Position.line_advance (p : Position) (cs : List Char) :
    (p.advance cs).line = p.line + cs.count '\n' := by
  induction cs generalizing p with
  | nil => rfl
  | cons c cs ih =>
    rw [advance_cons, ih, next]
    split
    · rename_i hc
      simp only [hc, List.count_cons_self]
      omega
    · rename_i hc
      rw [List.count_cons_of_ne hc]

/-- The part of a text between two places. -/
theorem slice_between (pre raw y : List Char) :
    slice (pre ++ (raw ++ y)) (Position.start.advance pre).offset
      (Position.start.advance (pre ++ raw)).offset = raw := by
  have hstart : Position.start.offset = 0 := rfl
  rw [Position.offset_advance, Position.offset_advance, utf8Length_append, hstart, Nat.zero_add,
    Nat.zero_add, slice_append]

/-! ## Blanks and comments -/

theorem commentLength_cons (c : Char) (cs : List Char) : commentLength (c :: cs) =
    if c = '\n' then triviaLength cs + 1 else commentLength cs + 1 :=
  rfl

theorem triviaLength_cons (c : Char) (cs : List Char) : triviaLength (c :: cs) =
    if Text.isBlank c then triviaLength cs + 1
    else if opensComment (c :: cs) then commentLength cs + 1 else 0 :=
  rfl

theorem triviaLength_le (cs : List Char) : triviaLength cs ≤ cs.length := by
  have h : triviaLength cs ≤ cs.length ∧ commentLength cs ≤ cs.length := by
    induction cs with
    | nil => simp [triviaLength, commentLength]
    | cons c cs ih =>
      simp only [triviaLength, commentLength, List.length_cons]
      constructor
      · split_ifs <;> omega
      · split_ifs <;> omega
  exact h.1

/-! ## Cutting off one token -/

/-- Whether a sign may begin a number behind a token. -/
def signAfter (lexeme : Lexeme) (image : String) : Bool :=
  Token.allowsSign ⟨lexeme, image, default⟩

/-- The pieces of a text without blanks and comments before it. -/
def lexBody (signAllowed : Bool) (start : Position) : List Char → Lexed
  | [] => ⟨[], start⟩
  | c :: rest =>
    match munch? signAllowed (c :: rest) with
    | some m =>
      let image := (c :: rest).take m.length
      let tail := lexFrom (signAfter m.lexeme (String.ofList image)) (start.advance image)
        ((c :: rest).drop m.length)
      ⟨.token ⟨m.lexeme, String.ofList image, ⟨start, start.advance image⟩⟩ m.closed :: tail.pieces,
        tail.stop⟩
    | none =>
      let tail := lexFrom signAllowed (start.next c) rest
      ⟨.stray c ⟨start, start.next c⟩ :: tail.pieces, tail.stop⟩

theorem lexFrom_eq (s : Bool) (p : Position) (cs : List Char) : lexFrom s p cs =
    lexBody s (p.advance (cs.take (triviaLength cs))) (cs.drop (triviaLength cs)) := by
  rw [lexFrom]
  split <;> rename_i heq <;> rw [heq]
  · rfl
  · rename_i c rest
    cases hm : munch? s (c :: rest) with
    | none => simp only [lexBody, hm]
    | some m =>
      simp only [lexBody, hm]
      rfl

theorem lexBody_of_munch? (hm : munch? s (im ++ rest) = some m) (hlen : m.length = im.length) :
    lexBody s p (im ++ rest) =
      let tail := lexFrom (signAfter m.lexeme (String.ofList im)) (p.advance im) rest
      ⟨.token ⟨m.lexeme, String.ofList im, ⟨p, p.advance im⟩⟩ m.closed :: tail.pieces,
        tail.stop⟩ := by
  cases im with
  | nil => exact absurd rfl (ne_nil_of_length_eq m hlen)
  | cons c r =>
    rw [List.cons_append] at hm ⊢
    simp only [lexBody, hm, hlen]
    rw [← List.cons_append, List.take_left' rfl, List.drop_left' rfl]

/-- A character that begins no token is reported. -/
theorem diagnostics_lexBody_of_stray (hm : munch? s (c :: rest) = none) :
    ∃ span ds, (lexBody s p (c :: rest)).diagnostics = ⟨.unexpectedCharacter c, span⟩ :: ds := by
  simp only [lexBody, hm]
  exact ⟨_, _, rfl⟩

theorem triviaLength_of_isBlank (h : Text.isBlank c = true) (cs : List Char) :
    triviaLength (c :: cs) = triviaLength cs + 1 := by
  simp [triviaLength, h]

/-- A blank moves on and changes nothing else. -/
theorem lexFrom_of_isBlank (h : Text.isBlank c = true) (cs : List Char) :
    lexFrom s p (c :: cs) = lexFrom s (p.next c) cs := by
  rw [lexFrom_eq, lexFrom_eq, triviaLength_of_isBlank h, List.take_succ_cons,
    Position.advance_cons, List.drop_succ_cons]

/-- Whether a sign is allowed does not matter to what is left. -/
def Calm (cs : List Char) : Prop :=
  ∀ p, lexFrom false p cs = lexFrom true p cs

theorem calm_nil : Calm [] := by
  intro p
  rw [lexFrom_eq, lexFrom_eq]
  rfl

theorem Calm.blank (h : Calm cs) (hc : Text.isBlank c = true) : Calm (c :: cs) := by
  intro p
  rw [lexFrom_of_isBlank hc, lexFrom_of_isBlank hc, h]

/-- Only before a sign and a digit does it matter whether a sign is allowed. -/
theorem calm_of_munch? (htrivia : triviaLength (c :: cs) = 0)
    (hm : munch? true (c :: cs) = some m) (hm' : munch? false (c :: cs) = some m) :
    Calm (c :: cs) := by
  intro p
  rw [lexFrom_eq, lexFrom_eq, htrivia, List.drop_zero]
  simp only [lexBody, hm, hm']

end DiagramTour
