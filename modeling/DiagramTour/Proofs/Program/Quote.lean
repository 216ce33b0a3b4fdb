import DiagramTour.Program.Printer
import DiagramTour.Proofs.Token.Image

/-!
# Quoted texts and names

A printed quote is read back as the text that it quotes, whatever follows it, and a printed name
is read back as the name, as a word or as a quote.
-/

namespace DiagramTour

/-! ## Quotes -/

theorem quotedBody_escapeQuoted (c : Char) (r : List Char) :
    quotedBody '\x22' (escapeQuoted c ++ r) =
      (c :: (quotedBody '\x22' r).1, (quotedBody '\x22' r).2.1 + (escapeQuoted c).length,
        (quotedBody '\x22' r).2.2) := by
  unfold escapeQuoted
  split_ifs with h1 h2 h3 h4 h5
  -- The characters that are escaped, and then all others
  · subst h1
    simp [quotedBody_cons, quotedBody.resolve]
  · subst h2
    simp [quotedBody_cons, quotedBody.resolve]
  · subst h3
    simp [quotedBody_cons, quotedBody.resolve]
  · subst h4
    simp [quotedBody_cons, quotedBody.resolve]
  · subst h5
    simp [quotedBody_cons, quotedBody.resolve]
  · simp [quotedBody_cons, h1, h2, h3]

theorem quotedBody_flatMap (cs rest : List Char) :
    quotedBody '\x22' (cs.flatMap escapeQuoted ++ '\x22' :: rest) =
      (cs, (cs.flatMap escapeQuoted).length + 1, true) := by
  induction cs with
  | nil => simp [quotedBody_cons]
  | cons c cs ih =>
    rw [List.flatMap_cons, List.append_assoc, quotedBody_escapeQuoted, ih, List.length_append]
    simp only [Prod.mk.injEq, true_and, and_true]
    omega

theorem toList_quote (text : String) :
    (quote text).toList = '\x22' :: (text.toList.flatMap escapeQuoted ++ ['\x22']) := by
  simp [quote]

/-- A printed quote is read as what it quotes. -/
theorem munches_quote (text : String) (rest : List Char) :
    Munches (quote text).toList rest (.string text) := by
  have hbody := quotedBody_flatMap text.toList rest
  let m : Munch :=
    { lexeme := .string text, length := (text.toList.flatMap escapeQuoted).length + 1 + 1,
      length_pos := Nat.succ_pos _ }
  have hmunch : munch? true ((quote text).toList ++ rest) = some m := by
    rw [toList_quote]
    simp only [List.cons_append, List.append_assoc, List.nil_append]
    rw [munch?_of_ne (by decide), flat?_quote (.inl rfl)]
    simp [string?, hbody, m]
  refine ⟨⟨m, hmunch, by simp [m, toList_quote], rfl, rfl⟩, ?_⟩
  rw [toList_quote, List.cons_append]
  exact triviaLength_eq_zero (by decide) (opensComment_of_ne (by decide) (by decide))

/-! ## Names -/

/-- A text that is printed as a word is a word, and not a reserved one. -/
theorem isWord_of_isIdentifier {text : String} (h : isIdentifier text = true) :
    IsWord text.toList ∧ wordLexeme text = .identifier := by
  unfold isIdentifier at h
  cases hcs : text.toList with
  | nil => simp [hcs] at h
  | cons c cs =>
    simp only [hcs, Bool.and_eq_true, beq_iff_eq, Bool.not_eq_true',
      List.contains_eq_mem, List.mem_cons, List.not_mem_nil, or_false, decide_eq_false_iff_not,
      not_or] at h
    obtain ⟨⟨⟨hc, htail⟩, hkey⟩, ht, hf, hn⟩ := h
    exact ⟨⟨hc, htail⟩, by simp [wordLexeme, ht, hf, hn, hkey]⟩

/-- A printed name is read as a word that is not reserved, or as a quote. -/
theorem munches_printName (name : String) {rest : List Char} (hrest : Fenced rest) :
    ∃ lexeme, Munches (printName name).toList rest lexeme ∧
      (lexeme = .identifier ∧ printName name = name ∨ lexeme = .string name) := by
  unfold printName
  split
  · rename_i h
    obtain ⟨hword, hlex⟩ := isWord_of_isIdentifier h
    refine ⟨.identifier, ?_, .inl ⟨rfl, rfl⟩⟩
    have := hword.munches_fenced hrest
    rwa [String.ofList_toList, hlex] at this
  · exact ⟨.string name, munches_quote name rest, .inr rfl⟩

end DiagramTour
