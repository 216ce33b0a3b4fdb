import DiagramTour.Proofs.Program.AbreastItem
import DiagramTour.Proofs.Program.RoundTrip

/-!
# Texts with a heading

The first line of a text holds its version, and the declarations begin behind it.  So a text with such a
line is read from its declarations on: what is reported of it is what is wrong with its tokens, and then
what is reported of the declarations.
-/

namespace DiagramTour

open Cursor (Onward)

variable {s : Bool} {cs mid : List Char} {c : Cursor} {source : String}

theorem reports_versionTail (c : Cursor) : (Parse.versionTail c).next.reports = c.reports := by
  induction hn : c.size using Nat.strongRecOn generalizing c with
  | _ n ih =>
      rw [Parse.versionTail]
      split
      · rename_i h
        have hlt := Cursor.size_advance_lt_of_atPunct (Bool.and_eq_true_iff.1 h).1
        have hle := c.advance.size_advance_le
        have htail := ih _ (by omega) c.advance.advance rfl
        simpa using htail
      · rfl

/-- A version that is there is read in silence. -/
theorem reports_version (h : ¬(Parse.version c).next.Failed) :
    (Parse.version c).next.reports = c.reports := by
  have hpart : Parse.versionTail.isVersionPart c.peek = true := by
    by_contra hno
    refine h ?_
    simp [Parse.version, Parse.start, Parse.look, Parse.unexpected, hno, Cursor.failed_unexpected]
  unfold Parse.version
  simp only [Parse.bind_apply, Parse.start, Parse.look, Parsed.andThen_next, Parsed.here_next,
    Parsed.here_value, hpart]
  exact (reports_versionTail c.advance).trans (Cursor.reports_advance c)

theorem wellFormed_version (span : Span) :
    Version.WellFormed ⟨"1.0", Parse.versionParts "1.0", span⟩ := by
  have hwhole (d : Char) (hd : d.isDigit = true) : Whole (String.ofList [d]) :=
    Digits.whole ⟨by simp, by simpa using hd⟩
  refine ⟨⟨"1", ["0"], rfl, ?_⟩, rfl⟩
  rintro w (_ | ⟨_, _ | ⟨_, ⟨⟩⟩⟩)
  · exact hwhole '1' (by decide)
  · exact hwhole '0' (by decide)

theorem program?_of_atKeyword_eq (h : c.atKeyword "mpd" = true) : ∃ span,
    (Parse.program? c).value = some ⟨(Parse.version c.advance).value,
      (Cursor.items true false (Parse.version c.advance).next).value, span⟩ ∧
    (Parse.program? c).next = (Cursor.items true false (Parse.version c.advance).next).next := by
  have hexpect : c.expectKeyword "mpd" = c.advance := if_pos h
  rw [← hexpect]
  unfold Parse.program?
  simp only [Parse.bind_apply, Parse.start, Parse.look, Parsed.andThen_next, Parsed.here_next,
    Parsed.andThen_value, Parsed.here_value, h]
  exact ⟨_, rfl, rfl⟩

/-- Behind the version of a text come its declarations. -/
theorem Cursor.At.heading (hmid : NextItem mid) (hc : c.At (bareHead ++ mid)) :
    c.atKeyword "mpd" = true ∧ (Parse.version c.advance).value.raw = "1.0" ∧
      (Parse.version c.advance).next.At mid ∧ (Parse.version c.advance).next.reports = c.reports := by
  have hword : IsWord "mpd".toList := by decide
  have hc : c.At ("mpd".toList ++ ' ' :: ("1.0".toList ++ '\n' :: mid)) := hc
  have hshows := hc.keyword hword rfl (fenced_space _)
  obtain ⟨⟨hraw, -⟩, hnext⟩ := Parse.Reads.version (wellFormed_version default) hmid.calm.lineFeed
    (hmid.absent (by decide)) c.advance hshows.next.space
  refine ⟨(hshows.atKeyword _).trans rfl, hraw, hnext.lineFeed, ?_⟩
  rw [reports_version hnext.2, Cursor.reports_advance]

/-- The cursor over a text behind its version. -/
def Cursor.declarations (source : String) : Cursor :=
  (Parse.version (Cursor.outset source).advance).next

/-- A text that is read from its declarations on. -/
structure ReadFromDeclarations (source : String) (mid : List Char) (v : Version) (span : Span) : Prop where
  place : (Cursor.declarations source).At mid
  text : (Cursor.declarations source).source = source.toList
  reports : (Cursor.declarations source).reports = #[]
  version : v.raw = "1.0"
  program : (parse source).program =
    some ⟨v, (Cursor.items true false (.declarations source)).value, span⟩
  diagnostics : (parse source).diagnostics = (lex source).diagnostics ++
    (Cursor.items true false (.declarations source)).next.reports.toList

theorem parse_of_declarations (hsource : source.toList = bareHead ++ mid) (hmid : NextItem mid) :
    ∃ v span, ReadFromDeclarations source mid v span := by
  have hbefore := Cursor.before_outset source
  rw [hsource] at hbefore
  obtain ⟨hword, hraw, hplace, hreports⟩ :=
    Cursor.At.heading hmid ⟨⟨[], hbefore⟩, Cursor.not_failed_outset source⟩
  obtain ⟨span, hvalue, hnext⟩ := program?_of_atKeyword_eq hword
  have honward := (Onward.advance (.outset source)).trans (Parse.Yields.version _).onward
  refine ⟨_, span, hplace, honward.source, hreports, hraw, hvalue, ?_⟩
  rw [Cursor.declarations, ← hnext]
  rfl

theorem parse_of_heading (hsource : source.toList = bareHead ++ mid) (hmid : NextItem mid) :
    ∃ (c : Cursor) (v : Version) (span : Span), c.At mid ∧ c.source = source.toList ∧
      c.reports = #[] ∧ v.raw = "1.0" ∧
      (parse source).program = some ⟨v, (Cursor.items true false c).value, span⟩ ∧
      (parse source).diagnostics = (lexFrom true .start c.source).diagnostics ++
        (Cursor.items true false c).next.reports.toList := by
  obtain ⟨v, span, h⟩ := parse_of_declarations hsource hmid
  exact ⟨_, v, span, h.place, h.text, h.reports, h.version, h.program,
    by rw [h.text]; exact h.diagnostics⟩

namespace Cursor

variable {d : Cursor} {pre : List Char}

/-- What was read of a text is what stands before what is left. -/
theorem At.before (h : c.At cs) (hsource : c.source = pre ++ cs) : c.Before true pre cs := by
  obtain ⟨⟨pre', hbefore⟩, -⟩ := h
  obtain rfl : pre' = pre := List.append_cancel_right (hbefore.source.symm.trans hsource)
  exact hbefore

/-- Behind a declaration at the end of a text nothing is read. -/
theorem items_of_last (hgoing : d.atEnd = false) (hrest : d.item.next.rest = []) :
    (items true false d).value = d.item.value.toList ∧
      (items true false d).next = d.item.next := by
  obtain ⟨hvalue, hnext⟩ := items_of_going true false hgoing
  have hlt : d.item.next.size < d.size := by
    have hpos := size_pos_of_not_atEnd hgoing
    simpa [size, hrest] using hpos
  have hbehind : (itemsBehind true false d).value = [] ∧
      (itemsBehind true false d).next = d.item.next := by
    have hturn := afterTurn_of_lt hlt "a declaration"
    have hend : (d.afterTurn d.item.next "a declaration").atEnd = true := by
      rw [hturn, atEnd, hrest]
      rfl
    show (items _ _ (d.afterTurn d.item.next "a declaration")).value = [] ∧
      (items _ _ (d.afterTurn d.item.next "a declaration")).next = d.item.next
    rw [items, dif_pos hend]
    exact ⟨rfl, hturn⟩
  rw [hvalue, hnext, hbehind.1, hbehind.2, List.append_nil]
  exact ⟨rfl, rfl⟩

end Cursor

end DiagramTour
