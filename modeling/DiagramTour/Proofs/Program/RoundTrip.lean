import DiagramTour.Proofs.Program.ReadsProgram

/-!
# Printed programs are read back

A program that was read without an error is well formed, and what is printed of a well-formed
program is read as the same tree, if the program is clear.  Five texts, one for each thing that can
keep a program from being clear, show that it has to be.
-/

namespace DiagramTour

variable {source : String} {p : Program}

/-! ## From a text to its tree -/

theorem hasErrors_append (ds es : List Diagnostic) :
    hasErrors (ds ++ es) = (hasErrors ds || hasErrors es) :=
  List.any_append

/-- What is read without an error is well formed. -/
theorem wellFormed_of_parse (h : (parse source).program = some p)
    (hok : hasErrors (parse source).diagnostics = false) : p.WellFormed := by
  rw [parse, hasErrors_append, Bool.or_eq_false_iff] at hok
  have hgenuine : (Cursor.outset source).Genuine :=
    ⟨⟨true, [], source.toList, Cursor.before_outset source⟩, hok.1⟩
  have hread : ¬(Parse.program? (Cursor.outset source)).next.Failed := by
    rw [Cursor.Failed, Bool.not_eq_true]
    exact hok.2
  exact (Parse.Yields.program? (Cursor.outset source)).value hgenuine hread p h

/-- What is printed of a clear program is read back without any report. -/
theorem parse_print (h : p.WellFormed) (hclear : p.isClear = true) :
    ∃ q, (parse p.print).program = some q ∧ hasErrors (parse p.print).diagnostics = false ∧
      q.withoutSpans = p.withoutSpans := by
  obtain ⟨⟨q, hq, hsame⟩, hend⟩ := Parse.Reads.program? h hclear (Cursor.outset p.print)
    ⟨⟨[], Cursor.before_outset p.print⟩, Cursor.not_failed_outset p.print⟩
  have hsource : (Parse.program? (Cursor.outset p.print)).next.source = p.print.toList :=
    (Parse.Yields.program? (Cursor.outset p.print)).onward.source
  have hlex : (lex p.print).diagnostics = [] := by
    have hclean := hend.diagnostics
    rwa [hsource] at hclean
  refine ⟨q, hq, ?_, hsame⟩
  rw [parse, hasErrors_append, hlex]
  exact Bool.or_eq_false_iff.2 ⟨rfl, Bool.eq_false_iff.2 hend.2⟩

/-! ## There and back -/

/-- What is printed of the tree of a text, if nothing is wrong with the text, is read back as the
same tree without its spans, and nothing is wrong with it. -/
def ReadsBack (source : String) : Prop :=
  ∀ p, (parse source).program = some p → hasErrors (parse source).diagnostics = false →
    ∃ q, (parse p.print).program = some q ∧ hasErrors (parse p.print).diagnostics = false ∧
      q.withoutSpans = p.withoutSpans

/-- A text whose tree is clear is read back. -/
theorem readsBack_of_isClear (source : String)
    (hclear : (parse source).program.all Program.isClear = true) : ReadsBack source := by
  intro p hp hok
  rw [hp, Option.all_some] at hclear
  exact parse_print (wellFormed_of_parse hp hok) hclear

/-- A text with a deck, a raw block, a block that is not understood, and a step. -/
def guidedText : String :=
  "mpd 1.2.3
diagram \x7b mermaid <<<M
A-->B
M>>>
\x7d
let limit = $user.1 + 3 * -(2)
deck \x7b
  future \x7b any \x7b 2 \x7d \x7d
  scene \x7b step first \x7b
    focus group(node A, css \"b\") pad 10
    binding \x7b on timer 200ms when !$busy \x7b do next(by: 1) \x7d \x7d
  \x7d \x7d
\x7d
"

set_option maxRecDepth 1000 in
theorem guidedText_read : (parse guidedText).program.isSome = true ∧
    hasErrors (parse guidedText).diagnostics = false ∧
    (parse guidedText).program.all Program.isClear = true := by
  -- To cut a literal into its characters would cost the kernel more than to read them
  have htext : guidedText = String.ofList _ := rfl
  rw [htext, parse, lex, String.toList_ofList]
  decide +kernel

theorem guidedText_readsBack : (parse guidedText).program.isSome = true ∧
    hasErrors (parse guidedText).diagnostics = false ∧
    (parse guidedText).program.all Program.isClear = true ∧ ReadsBack guidedText := by
  obtain ⟨hsome, hok, hclear⟩ := guidedText_read
  exact ⟨hsome, hok, hclear, readsBack_of_isClear guidedText hclear⟩

/-! ## What gets lost -/

/-- Whether an error is reported or a declaration is lost on the way back. -/
def losesTree (source : String) : Bool :=
  !hasErrors (parse source).diagnostics && (parse source).program.any fun p =>
    hasErrors (parse p.print).diagnostics ||
      (parse p.print).program.all (·.items.length != p.items.length)

theorem Item.length_allWithoutSpans (is : List Item) :
    (Item.allWithoutSpans is).length = is.length := by
  induction is with
  | nil => rfl
  | cons i is ih => rw [allWithoutSpans, List.length_cons, List.length_cons, ih]

theorem not_readsBack_of_losesTree (h : losesTree source = true) : ¬ReadsBack source := by
  intro hback
  obtain ⟨hok, hlost⟩ := Bool.and_eq_true_iff.1 h
  obtain ⟨p, hp, hlost⟩ := (Option.any_eq_true _ _).1 hlost
  obtain ⟨q, hq, hreadOk, hsame⟩ := hback p hp (by simpa using hok)
  have hlength : q.items.length = p.items.length := by
    rw [← Item.length_allWithoutSpans, ← Item.length_allWithoutSpans p.items]
    exact congrArg (fun r : Program => r.items.length) hsame
  simp [hreadOk, hq, hlength] at hlost

/-- Each way in which a program may be unclear loses the tree: two numbers on the way into a value, an
operator or a clause that opens a block that is not understood, a name as the bounds of a camera, and
a raw block that opens in a block that is not understood. -/
theorem unclear_texts_not_readsBack :
    ¬ReadsBack "mpd 1\nlet v = $a.1 .2" ∧ ¬ReadsBack "mpd 1\nlet v = 1;\nor 2" ∧
      ¬ReadsBack "mpd 1\nuse \"p\";\nas q" ∧
      ¬ReadsBack "mpd 1\nruntime \x7b camera \x7b bounds: (\"sideways\") \x7d \x7d" ∧
      ¬ReadsBack "mpd 1\nfoo <<<T // c\ndiagram \x7b mermaid <<<T\nbody\nT>>>\n\x7d" := by
  have hlost : losesTree "mpd 1\nlet v = $a.1 .2" = true ∧
      losesTree "mpd 1\nlet v = 1;\nor 2" = true ∧ losesTree "mpd 1\nuse \"p\";\nas q" = true ∧
      losesTree "mpd 1\nruntime \x7b camera \x7b bounds: (\"sideways\") \x7d \x7d" = true ∧
      losesTree "mpd 1\nfoo <<<T // c\ndiagram \x7b mermaid <<<T\nbody\nT>>>\n\x7d" = true := by
    decide +kernel
  obtain ⟨hpath, hor, has, hbounds, hraw⟩ := hlost
  exact ⟨not_readsBack_of_losesTree hpath, not_readsBack_of_losesTree hor,
    not_readsBack_of_losesTree has, not_readsBack_of_losesTree hbounds,
    not_readsBack_of_losesTree hraw⟩

end DiagramTour
