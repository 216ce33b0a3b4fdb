import DiagramTour.Compile
import DiagramTour.Proofs.Program.Standing

/-!
# Texts that begin as programs

A text has a program as soon as its first word is the right one, whatever comes after it; a text
without one has an error.  So a text that compiles without errors has a program and a document.
-/

namespace DiagramTour

variable {source : String}

/-- The cursor before the first token of a text. -/
def Cursor.outset (source : String) : Cursor :=
  .ofLexed source.toList (lex source)

/-- The first cursor over a text stands before all of it. -/
theorem Cursor.before_outset (source : String) :
    (Cursor.outset source).Before true [] source.toList :=
  ⟨rfl, rfl, rfl, rfl⟩

theorem Cursor.not_failed_outset (source : String) : ¬(Cursor.outset source).Failed := by
  rintro ⟨⟩

theorem Parse.program?_of_atKeyword {c : Cursor} (h : c.atKeyword "mpd" = true) :
    (Parse.program? c).value.isSome = true := by
  simp only [Parse.program?, Parse.start, Parse.look, Parse.bind_apply, Parsed.andThen_value,
    Parsed.here_value, Parsed.here_next, h]
  rfl

theorem Parse.program?_of_not_atKeyword {c : Cursor} (h : c.atKeyword "mpd" = false) :
    (Parse.program? c).value = none ∧ (Parse.program? c).next.Failed := by
  simp [Parse.program?, Parse.start, Parse.look, Parse.expectKeyword, Cursor.expectKeyword, h,
    Cursor.failed_unexpected]

/-- There is a program exactly when the text begins with the word for one. -/
theorem parse_isSome_eq (source : String) :
    (parse source).program.isSome = (Cursor.outset source).atKeyword "mpd" := by
  cases h : (Cursor.outset source).atKeyword "mpd" with
  | true => exact Parse.program?_of_atKeyword h
  | false => exact congrArg Option.isSome (Parse.program?_of_not_atKeyword h).1

/-- Whatever has no program has an error. -/
theorem hasErrors_of_program_eq_none (h : (parse source).program = none) :
    hasErrors (parse source).diagnostics = true := by
  have hno : (Cursor.outset source).atKeyword "mpd" = false := by
    rw [← parse_isSome_eq, h]
    rfl
  have hfailed := (Parse.program?_of_not_atKeyword hno).2
  simp only [Cursor.Failed, hasErrors] at hfailed
  simp only [hasErrors, parse, List.any_append, Bool.or_eq_true]
  exact .inr hfailed

/-- A text that compiles without errors was read, audited and lowered without any. -/
theorem compile_of_not_hasErrors (h : (compile source).hasErrors = false) :
    ∃ p, (compile source).program = some p ∧ (compile source).document = some p.lower.value ∧
      hasErrors (parse source).diagnostics = false ∧ hasErrors p.audit = false := by
  cases hp : (parse source).program with
  | none =>
    have := hasErrors_of_program_eq_none hp
    simp [compile, hp, Compilation.hasErrors, this] at h
  | some p =>
    simp only [compile, hp, Compilation.hasErrors, hasErrors, List.any_append,
      Bool.or_eq_false_iff] at h
    exact ⟨p, by simp [compile, hp], by simp [compile, hp], h.1.1, h.1.2⟩

end DiagramTour
