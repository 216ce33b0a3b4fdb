import DiagramTour.Proofs.Program.Abreast
import DiagramTour.Proofs.Program.ReadsExpr
import DiagramTour.Proofs.Program.YieldsExpr

/-!
# Reading the same targets and expressions twice

From two cursors abreast the same target and the same expression is read, up to spans.  A list
between marks is an error where the text ends before its closing mark, so the cursors are at that mark
together.
-/

namespace DiagramTour

open Cursor (Onward Abreast PartsTally)

variable {c d : Cursor}

/-! ## Targets -/

namespace Parse.Tallies

theorem lookPunct {mark : String} (h : mark ≠ Cursor.closeBrace) :
    (Parse.look (·.atPunct mark)).Tallies (fun b => b) (Parse.look (·.atPunct mark)) :=
  look (.isPunct h)

theorem lookKeyword (word : String) :
    (Parse.look (·.atKeyword word)).Tallies (fun b => b) (Parse.look (·.atKeyword word)) :=
  look (.isKeyword word)

theorem elementRef : Parse.elementRef.Tallies (fun r => r) Parse.elementRef := by
  refine fun c d => ⟨(Yields.elementRef c).onward, fun hab hok => ?_⟩
  simp only [Parse.elementRef, hab.atOperator, hab.peek .isName, hab.peek .isInt] at hok ⊢
  by_cases hstar : c.atOperator "*" = true
  · rw [if_pos hstar, if_pos hstar]
    exact ⟨rfl, (hab.next (Cursor.atEnd_eq_false_of_atOperator hstar)).2⟩
  · rw [if_neg hstar] at hok ⊢
    rw [if_neg hstar]
    by_cases hname : (c.peek.isName || c.peek.isInt) = true
    · obtain ⟨halike, hnext⟩ := hab.next (Cursor.atEnd_eq_false_of_ne
        (φ := fun t => t.isName || t.isInt) ⟨fun _ _ => rfl, rfl⟩ hname (by decide))
      rw [if_pos hname, if_pos hname]
      exact ⟨congrArg ElementRef.named halike.text, hnext⟩
    · rw [if_neg hname] at hok
      exact absurd (Cursor.failed_unexpected c _) hok

theorem edgeRef : Parse.edgeRef.Tallies (fun r => r) Parse.edgeRef := by
  refine (lookPunct (by decide)).same fun b => ?_
  cases b with
  | true =>
      exact (eatPunct (by decide)).same fun _ => elementRef.same fun _ => (expectPunct _).same fun _ =>
        elementRef.same fun _ => (expectPunct _).same fun _ => pure rfl
  | false =>
      refine elementRef.same fun first => ?_
      exact readIf (.isOperator "->") rfl
        (fun _ _ _ _ => elementRef.same fun _ => pure rfl) (pure rfl)

theorem targetText : Parse.targetText.Tallies (fun s => s) Parse.targetText := by
  refine fun c d => ⟨(Yields.targetText c).onward, fun hab hok => ?_⟩
  simp only [Parse.targetText, hab.peek .isString] at hok ⊢
  by_cases hstring : c.peek.isString = true
  · obtain ⟨halike, hnext⟩ := hab.next
      (Cursor.atEnd_eq_false_of_ne .isString hstring (by decide))
    rw [if_pos hstring, if_pos hstring]
    exact ⟨halike.text, hnext⟩
  · rw [if_neg hstring] at hok
    exact absurd (Cursor.failed_unexpected c _) hok

end Parse.Tallies

namespace Cursor

variable {b b' : Nat}

/-- A list that is over without an error is at its closing mark. -/
theorem atPunct_of_expectPunct {mark : String} (hok : ¬(c.expectPunct mark).Failed) :
    c.atPunct mark = true := by
  unfold expectPunct at hok
  split at hok
  · assumption
  · exact absurd (failed_unexpected c _) hok

/-- Where the one list goes on the other does. -/
theorem Abreast.not_over {mark : String} (h : Abreast c d) (hmark : mark ≠ closeBrace)
    (hopen : ¬(c.atPunct mark || c.atEnd) = true) : ¬(d.atPunct mark || d.atEnd) = true := by
  rw [Bool.or_eq_true, not_or] at hopen
  rw [h.atPunct hmark, h.atEnd, Bool.or_false]
  exact hopen.1

section

variable (item : (e : Cursor) → e.size < b → Parsed e Target)

theorem targetItems_of_stop (hstop : (c.atPunct ")" || c.atEnd) = true) (hc : c.size < b) :
    targetItems b item c hc = .here c [] := by
  rw [targetItems, dif_pos hstop]

/-- A target that is missing is passed over. -/
theorem targetItems_of_still (hopen : ¬(c.atPunct ")" || c.atEnd) = true) (hc : c.size < b)
    (hsize : (item c hc).next.size = c.size) :
    ∃ hlt, (targetItems b item c hc).value = (item c hc).value ::
        (targetItems b item (c.afterTurn (item c hc).next "a target") hlt).value ∧
      (targetItems b item c hc).next =
        (targetItems b item (c.afterTurn (item c hc).next "a target") hlt).next := by
  have hend := not_atEnd_of_not_stop hopen
  refine ⟨Nat.lt_trans (size_afterTurn_lt hend (item c hc).le _) hc, ?_⟩
  rw [targetItems, dif_neg hopen]
  dsimp only
  rw [if_pos hsize]
  exact ⟨rfl, rfl⟩

/-- A target before a comma, and the targets behind it. -/
theorem targetItems_of_comma (hopen : ¬(c.atPunct ")" || c.atEnd) = true) (hc : c.size < b)
    (hsize : (item c hc).next.size ≠ c.size) (hsep : (item c hc).next.atPunct "," = true) :
    ∃ hlt, (targetItems b item c hc).value =
        (item c hc).value :: (targetItems b item (item c hc).next.advance hlt).value ∧
      (targetItems b item c hc).next = (targetItems b item (item c hc).next.advance hlt).next := by
  refine ⟨Nat.lt_of_lt_of_le (size_advance_lt_of_atPunct hsep)
    (Nat.le_trans (item c hc).le (Nat.le_of_lt hc)), ?_⟩
  rw [targetItems, dif_neg hopen]
  dsimp only
  rw [if_neg hsize, dif_pos hsep]
  exact ⟨rfl, rfl⟩

/-- The last target of a list. -/
theorem targetItems_of_close (hopen : ¬(c.atPunct ")" || c.atEnd) = true) (hc : c.size < b)
    (hsize : (item c hc).next.size ≠ c.size) (hsep : ¬(item c hc).next.atPunct "," = true)
    (hclose : (item c hc).next.atPunct ")" = true) :
    targetItems b item c hc = ⟨[(item c hc).value], (item c hc).next, (item c hc).le⟩ := by
  rw [targetItems, dif_neg hopen]
  dsimp only
  rw [if_neg hsize, dif_neg hsep, if_pos hclose]

/-- A target with no comma and no end of the list behind it is an error. -/
theorem failed_targetItems (hopen : ¬(c.atPunct ")" || c.atEnd) = true) (hc : c.size < b)
    (hsize : (item c hc).next.size ≠ c.size) (hsep : ¬(item c hc).next.atPunct "," = true)
    (hclose : ¬(item c hc).next.atPunct ")" = true) : (targetItems b item c hc).next.Failed := by
  rw [targetItems, dif_neg hopen]
  dsimp only
  rw [if_neg hsize, dif_neg hsep, if_neg hclose]
  exact failed_unexpected _ _

end

theorem onward_targetItems {item : (e : Cursor) → e.size < b → Parsed e Target}
    (hitem : ∀ e he, Onward e (item e he).next) (hc : c.size < b) :
    Onward c (targetItems b item c hc).next :=
  (yields_targetItems (fun e he => ⟨hitem e he, fun _ _ => trivial⟩) hc).onward

/-- The targets of a list that is closed. -/
theorem targetItems_tally {item : (e : Cursor) → e.size < b → Parsed e Target}
    {item' : (e : Cursor) → e.size < b' → Parsed e Target}
    (hitem : PartsTally Target.withoutSpans item item') {c d : Cursor} (hc : c.size < b)
    (hd : d.size < b') (hab : Abreast c d)
    (hok : ¬((targetItems b item c hc).next.expectPunct ")").Failed) :
    (targetItems b item c hc).value.map Target.withoutSpans =
        (targetItems b' item' d hd).value.map Target.withoutSpans ∧
      Abreast (targetItems b item c hc).next (targetItems b' item' d hd).next := by
  -- On what the first text has left: each of its turns ends at the same mark as that of the other
  induction hn : c.size using Nat.strongRecOn generalizing c d with
  | _ n ih =>
      by_cases hstop : (c.atPunct ")" || c.atEnd) = true
      · rw [targetItems_of_stop item hstop] at hok ⊢
        have hclose : d.atPunct ")" = true :=
          (hab.atPunct (by decide)).trans (atPunct_of_expectPunct hok)
        rw [targetItems_of_stop item' (by rw [hclose, Bool.true_or])]
        exact ⟨rfl, hab⟩
      have hstop' := hab.not_over (by decide) hstop
      have hturn := (hitem.tally c d hc hd).tally hab
      -- The second text has one token more before it at each of its places
      have hsizes {e e' : Cursor} (h : Abreast e e') : e'.size = d.size ↔ e.size = c.size := by
        rw [h.size, hab.size, Nat.add_right_cancel_iff]
      by_cases hsize : (item c hc).next.size = c.size
      · obtain ⟨hlt, hvalue, hnext⟩ := targetItems_of_still item hstop hc hsize
        rw [hnext] at hok
        have hend := not_atEnd_of_not_stop hstop
        have hafter : ¬(c.afterTurn (item c hc).next "a target").Failed := fun hf => hok
          ((Onward.expectPunct _ _).failed ((onward_targetItems hitem.onward hlt).failed hf))
        obtain ⟨hfirst, hbehind⟩ := hturn fun hf => hafter (hf.afterTurn _)
        obtain ⟨hlt', hvalue', hnext'⟩ :=
          targetItems_of_still item' hstop' hd ((hsizes hbehind).2 hsize)
        obtain ⟨htail, hlast⟩ := ih _ (hn ▸ size_afterTurn_lt hend (item c hc).le _) hlt hlt'
          (hab.afterTurn hbehind hend _ _ hafter) hok rfl
        rw [hvalue, hvalue', hnext, hnext']
        exact ⟨congrArg₂ List.cons hfirst htail, hlast⟩
      by_cases hsep : (item c hc).next.atPunct "," = true
      · obtain ⟨hlt, hvalue, hnext⟩ := targetItems_of_comma item hstop hc hsize hsep
        rw [hnext] at hok
        obtain ⟨hfirst, hbehind⟩ := hturn fun hf => hok ((Onward.expectPunct _ _).failed
          ((onward_targetItems hitem.onward hlt).failed (failed_advance.2 hf)))
        obtain ⟨hlt', hvalue', hnext'⟩ := targetItems_of_comma item' hstop' hd
          (hsize ∘ (hsizes hbehind).1) ((hbehind.atPunct (by decide)).trans hsep)
        obtain ⟨htail, hlast⟩ :=
          ih _ (hn ▸ Nat.lt_of_lt_of_le (size_advance_lt_of_atPunct hsep) (item c hc).le) hlt hlt'
            (hbehind.next (atEnd_eq_false_of_atPunct hsep)).2 hok rfl
        rw [hvalue, hvalue', hnext, hnext']
        exact ⟨congrArg₂ List.cons hfirst htail, hlast⟩
      by_cases hclose : (item c hc).next.atPunct ")" = true
      · rw [targetItems_of_close item hstop hc hsize hsep hclose] at hok ⊢
        obtain ⟨hfirst, hbehind⟩ := hturn fun hf => hok ((Onward.expectPunct _ _).failed hf)
        rw [targetItems_of_close item' hstop' hd (hsize ∘ (hsizes hbehind).1)
          (by rwa [hbehind.atPunct (by decide)]) ((hbehind.atPunct (by decide)).trans hclose)]
        exact ⟨congrArg (fun t => [t]) hfirst, hbehind⟩
      · exact absurd ((Onward.expectPunct _ _).failed
          (failed_targetItems item hstop hc hsize hsep hclose)) hok

theorem tallies_targetList {item : (e : Cursor) → e.size < c.size → Parsed e Target}
    {item' : (e : Cursor) → e.size < d.size → Parsed e Target}
    (hitem : PartsTally Target.withoutSpans item item') :
    (c.targetList item).Tallies (List.map Target.withoutSpans) (d.targetList item') := by
  refine ⟨(yields_targetList fun e he => ⟨hitem.onward e he, fun _ _ => trivial⟩).onward,
    fun hab hok => ?_⟩
  unfold targetList at hok ⊢
  by_cases hc : c.atPunct "(" = true
  · have hd : d.atPunct "(" = true := (hab.atPunct (by decide)).trans hc
    rw [dif_pos hc] at hok
    rw [dif_pos hc, dif_pos hd]
    obtain ⟨hvalue, hnext⟩ := targetItems_tally hitem (size_advance_lt_of_atPunct hc)
      (size_advance_lt_of_atPunct hd) (hab.next (atEnd_eq_false_of_atPunct hc)).2 hok
    exact ⟨hvalue, ((Parse.Tallies.expectPunct ")" _ _).tally hnext hok).2⟩
  · rw [dif_neg hc] at hok
    exact absurd (failed_unexpected c _) hok

/-- The difference of the same targets; other than two of them are an error. -/
theorem tallies_difference (start start' : Position) {ts ts' : List Target}
    (hts : ts.map Target.withoutSpans = ts'.map Target.withoutSpans) :
    (c.difference start ts).Tallies Target.withoutSpans (d.difference start' ts') := by
  refine ⟨(yields_difference start ts c).onward, fun hab hok => ?_⟩
  have hlen : ts.length = ts'.length := by simpa using congrArg List.length hts
  unfold difference at hok ⊢
  dsimp only at hok ⊢
  by_cases htwo : ts.length = 2
  · rw [if_pos htwo, if_pos (hlen ▸ htwo)]
    obtain ⟨a, b, rfl⟩ := List.length_eq_two.1 htwo
    obtain ⟨a', b', rfl⟩ := List.length_eq_two.1 (hlen ▸ htwo)
    obtain ⟨ha, hb⟩ : a.withoutSpans = a'.withoutSpans ∧ b.withoutSpans = b'.withoutSpans := by
      simpa using hts
    exact ⟨by simp [Target.withoutSpans, ha, hb], hab⟩
  · rw [if_neg htwo] at hok
    exact absurd (failed_report.2 (.inr rfl)) hok

theorem Abreast.targetHead? (h : Abreast c d) : d.targetHead? = c.targetHead? := by
  unfold Cursor.targetHead?
  rcases h.next_or_ended with ⟨-, halike, -⟩ | ⟨hc, hd⟩
  · rw [halike.lexeme, halike.image]
  · rw [hc, hd]

/-- What is read behind the word that opens a target, which starts at a place. -/
def targetBehind (start : Position) (c : Cursor) : TargetHead → Parsed c Target
  | .element kind => (Parse.elementRef c).andThen fun ref e _ =>
      .here e (.element kind ref (e.spanFrom start))
  | .edge => (Parse.edgeRef c).andThen fun ref e _ => .here e (.edge ref (e.spanFrom start))
  | .matching key => (Parse.targetText c).andThen fun text e _ =>
      .here e (.matching key text (e.spanFrom start))
  | .several how => (c.targetList fun e _ => e.target).andThen fun members e _ =>
      .here e (.several how members (e.spanFrom start))
  | .except => (c.targetList fun e _ => e.target).andThen fun operands e _ =>
      e.difference start operands

theorem target_eq {head : TargetHead} (h : c.targetHead? = some head) :
    c.target.value = (targetBehind c.here c.advance head).value ∧
      c.target.next = (targetBehind c.here c.advance head).next := by
  rw [target.eq_1 c]
  split
  · rename_i hnone
    rw [hnone] at h
    cases h
  · rename_i head' hhead'
    obtain rfl : head' = head := by simpa [hhead'] using h
    cases head' <;> exact ⟨rfl, rfl⟩

theorem failed_target (h : c.targetHead? = none) : c.target.next.Failed := by
  rw [target.eq_1 c]
  split
  · exact failed_unexpected c _
  · rename_i head hhead
    rw [hhead] at h
    cases h

theorem tallies_targetBehind (start start' : Position) {c d : Cursor} (head : TargetHead)
    (ih : ∀ e e' : Cursor, e.size < c.size → e.target.Tallies Target.withoutSpans e'.target) :
    (targetBehind start c head).Tallies Target.withoutSpans (targetBehind start' d head) := by
  have hinner : PartsTally Target.withoutSpans (fun (e : Cursor) (_ : e.size < c.size) => e.target)
      (fun (e : Cursor) (_ : e.size < d.size) => e.target) :=
    ⟨fun e he => (ih e e he).onward, fun e e' he _ => ih e e' he⟩
  cases head <;> simp only [targetBehind]
  case element kind =>
      refine (Parse.Tallies.elementRef c d).andThen fun ref ref' e e' _ _ href => .here fun _ => ?_
      obtain rfl : ref = ref' := href
      rfl
  case edge =>
      refine (Parse.Tallies.edgeRef c d).andThen fun ref ref' e e' _ _ href => .here fun _ => ?_
      obtain rfl : ref = ref' := href
      rfl
  case matching key =>
      refine (Parse.Tallies.targetText c d).andThen fun s s' e e' _ _ hs => .here fun _ => ?_
      obtain rfl : s = s' := hs
      rfl
  case several how =>
      refine (tallies_targetList hinner).andThen fun ts ts' e e' _ _ hts => .here fun _ => ?_
      rw [← Target.membersWithoutSpans_eq, ← Target.membersWithoutSpans_eq] at hts
      simp only [Target.withoutSpans, hts]
  case except =>
      exact (tallies_targetList hinner).andThen fun ts ts' e e' _ _ hts => tallies_difference _ _ hts

theorem tallies_target (c d : Cursor) : c.target.Tallies Target.withoutSpans d.target := by
  refine ⟨(yields_target c).onward, ?_⟩
  induction hn : c.size using Nat.strongRecOn generalizing c d with
  | _ n ih =>
      intro hab hok
      cases hhead : c.targetHead? with
      | none => exact absurd (failed_target hhead) hok
      | some head =>
          obtain ⟨hvalue, hnext⟩ := target_eq hhead
          obtain ⟨hvalue', hnext'⟩ := target_eq (hab.targetHead?.trans hhead)
          rw [hvalue, hvalue', hnext, hnext']
          rw [hnext] at hok
          have hend := atEnd_eq_false_of_targetHead? hhead
          -- Inner targets begin behind the word of this one
          have hlt := size_advance_lt hend
          exact (tallies_targetBehind _ _ head fun e e' he =>
            ⟨(yields_target e).onward, ih e.size (by omega) e e' rfl⟩).tally (hab.next hend).2 hok

end Cursor

theorem Parse.Tallies.target : Parse.target.Tallies Target.withoutSpans Parse.target :=
  Cursor.tallies_target

/-! ## Variables -/

theorem Parse.Tallies.segment? (what : String) :
    (Parse.segment? what).Tallies (fun o => o) (Parse.segment? what) := by
  refine fun c d => ⟨(Yields.segment? what c).onward, fun hab hok => ?_⟩
  simp only [Parse.segment?, hab.peek .isWord, hab.peek .isInt] at hok ⊢
  by_cases hc : (c.peek.isWord || c.peek.isInt) = true
  · obtain ⟨halike, hnext⟩ := hab.next (Cursor.atEnd_eq_false_of_ne
      (φ := fun t => t.isWord || t.isInt) ⟨fun _ _ => rfl, rfl⟩ hc (by decide))
    rw [if_pos hc, if_pos hc]
    exact ⟨congrArg some halike.image, hnext⟩
  · rw [if_neg hc] at hok
    exact absurd (Cursor.failed_unexpected c _) hok

namespace Cursor

theorem tallies_pathTail (c d : Cursor) : c.pathTail.Tallies (fun ws => ws) d.pathTail := by
  refine ⟨(yields_pathTail c).onward, ?_⟩
  induction hn : c.size using Nat.strongRecOn generalizing c d with
  | _ n ih =>
      intro hab hok
      have hpoint : d.atPunct "." = c.atPunct "." := hab.atPunct (by decide)
      by_cases hc : c.atPunct "." = true
      · have hsegment := Parse.Tallies.segment? "a path segment" c.advance d.advance
        have hlt := size_advance_lt_of_atPunct hc
        have hle := (Parse.segment? "a path segment" c.advance).le
        rw [pathTail.eq_1 c, dif_pos hc] at hok ⊢
        rw [pathTail.eq_1 d, dif_pos (hpoint.trans hc)]
        have hbehind := (hab.next (atEnd_eq_false_of_atPunct hc)).2
        cases hs : (Parse.segment? "a path segment" c.advance).value with
        | some s =>
            simp only [hs] at hok ⊢
            obtain ⟨hvalue, hnext⟩ :=
              hsegment.tally hbehind fun hf => hok ((yields_pathTail _).onward.failed hf)
            simp only [← hvalue, hs]
            obtain ⟨htail, hlast⟩ := ih _ (by omega) _ _ rfl hnext hok
            exact ⟨congrArg (s :: ·) htail, hlast⟩
        | none =>
            simp only [hs] at hok ⊢
            obtain ⟨hvalue, hnext⟩ := hsegment.tally hbehind hok
            simp only [← hvalue, hs]
            exact ⟨trivial, hnext⟩
      · rw [pathTail.eq_1 c, dif_neg hc, pathTail.eq_1 d, dif_neg (by rwa [hpoint])]
        exact ⟨rfl, hab⟩

end Cursor

theorem Parse.Tallies.var : Parse.var.Tallies Expr.withoutSpans Parse.var :=
  start.any fun _ _ => (expectPunct _).same fun _ => (segment? _).same fun _ =>
    Parse.Tallies.same Cursor.tallies_pathTail fun _ => (spanFrom _ _).any fun _ _ => pure rfl

namespace Cursor

theorem tallies_calleeTail (c d : Cursor) : c.calleeTail.Tallies (fun ws => ws) d.calleeTail := by
  refine ⟨(yields_calleeTail c).onward, ?_⟩
  induction hn : c.size using Nat.strongRecOn generalizing c d with
  | _ n ih =>
      intro hab hok
      -- The tail of a name looks at two tokens before it goes on
      have hmore : (d.atPunct "." && d.second.isWord) = (c.atPunct "." && c.second.isWord) := by
        rw [hab.atPunct (by decide), hab.second .isWord]
      by_cases hc : (c.atPunct "." && c.second.isWord) = true
      · rw [calleeTail.eq_1 c, dif_pos hc] at hok ⊢
        rw [calleeTail.eq_1 d, dif_pos (hmore.trans hc)]
        obtain ⟨hpoint, hword⟩ := Bool.and_eq_true_iff.1 hc
        have hlt := size_advance_lt_of_atPunct hpoint
        have hle := size_advance_le c.advance
        have hnext := (hab.next (atEnd_eq_false_of_atPunct hpoint)).2
        rw [second_eq] at hword
        obtain ⟨halike, hnext'⟩ := hnext.next (atEnd_eq_false_of_isWord hword)
        obtain ⟨htail, hlast⟩ := ih _ (by omega) _ _ rfl hnext' hok
        refine ⟨?_, hlast⟩
        simp only [Parsed.weaken_value, Parsed.map_value, second_eq, htail, halike.image]
      · rw [calleeTail.eq_1 c, dif_neg hc, calleeTail.eq_1 d, dif_neg (by rwa [hmore])]
        exact ⟨rfl, hab⟩

/-! ## Lists -/

variable {α γ : Type} {f : α → γ} {b b' : Nat} {close expected : String}

section

variable (item : (e : Cursor) → e.size < b → Parsed e α)

theorem separated_of_stop (hstop : (c.atPunct close || c.atEnd) = true) (hc : c.size < b) :
    separated b close expected item c hc = .here c [] := by
  rw [separated, if_pos hstop]

/-- An item before a comma, and the items behind it. -/
theorem separated_of_comma (hopen : ¬(c.atPunct close || c.atEnd) = true) (hc : c.size < b)
    (hsep : (item c hc).next.atPunct "," = true) :
    ∃ hlt, (separated b close expected item c hc).value = (item c hc).value ::
        (separated b close expected item (item c hc).next.advance hlt).value ∧
      (separated b close expected item c hc).next =
        (separated b close expected item (item c hc).next.advance hlt).next := by
  refine ⟨Nat.lt_of_lt_of_le (size_advance_lt_of_atPunct hsep)
    (Nat.le_trans (item c hc).le (Nat.le_of_lt hc)), ?_⟩
  rw [separated, if_neg hopen]
  dsimp only
  rw [dif_pos hsep]
  exact ⟨rfl, rfl⟩

/-- The last item of a list. -/
theorem separated_of_close (hopen : ¬(c.atPunct close || c.atEnd) = true) (hc : c.size < b)
    (hsep : ¬(item c hc).next.atPunct "," = true) (hclose : (item c hc).next.atPunct close = true) :
    separated b close expected item c hc =
      ⟨[(item c hc).value], (item c hc).next, (item c hc).le⟩ := by
  rw [separated, if_neg hopen]
  dsimp only
  rw [dif_neg hsep, if_pos hclose]

/-- A list that is given up is an error. -/
theorem failed_separated (hopen : ¬(c.atPunct close || c.atEnd) = true) (hc : c.size < b)
    (hsep : ¬(item c hc).next.atPunct "," = true) (hclose : ¬(item c hc).next.atPunct close = true) :
    (separated b close expected item c hc).next.Failed := by
  have hgiven := failed_unexpected (item c hc).next expected
  rw [separated, if_neg hopen]
  dsimp only
  rw [dif_neg hsep, if_neg hclose]
  split
  · exact failed_advance.2 hgiven
  · exact hgiven

end

theorem onward_separated {item : (e : Cursor) → e.size < b → Parsed e α}
    (hitem : ∀ e he, Onward e (item e he).next) (close expected : String) (hc : c.size < b) :
    Onward c (separated b close expected item c hc).next :=
  (yields_separated (Q := fun _ => True) close expected item
    (fun e he => ⟨hitem e he, fun _ _ => trivial⟩) hc).onward

/-- The items of a list that is closed. -/
theorem separated_tally {item : (e : Cursor) → e.size < b → Parsed e α}
    {item' : (e : Cursor) → e.size < b' → Parsed e α} (hitem : PartsTally f item item')
    (hmark : close ≠ closeBrace) {c d : Cursor} (hc : c.size < b) (hd : d.size < b')
    (hab : Abreast c d)
    (hok : ¬((separated b close expected item c hc).next.expectPunct close).Failed) :
    (separated b close expected item c hc).value.map f =
        (separated b' close expected item' d hd).value.map f ∧
      Abreast (separated b close expected item c hc).next
        (separated b' close expected item' d hd).next := by
  -- As for targets, except that no turn is passed over here
  induction hn : c.size using Nat.strongRecOn generalizing c d with
  | _ n ih =>
      by_cases hstop : (c.atPunct close || c.atEnd) = true
      · rw [separated_of_stop item hstop] at hok ⊢
        have hclose : d.atPunct close = true :=
          (hab.atPunct hmark).trans (atPunct_of_expectPunct hok)
        rw [separated_of_stop item' (by rw [hclose, Bool.true_or])]
        exact ⟨rfl, hab⟩
      have hstop' := hab.not_over hmark hstop
      have hturn := (hitem.tally c d hc hd).tally hab
      by_cases hsep : (item c hc).next.atPunct "," = true
      · obtain ⟨hlt, hvalue, hnext⟩ := separated_of_comma item hstop hc hsep
        rw [hnext] at hok
        obtain ⟨hfirst, hbehind⟩ := hturn fun hf => hok ((Onward.expectPunct _ _).failed
          ((onward_separated hitem.onward close expected hlt).failed (failed_advance.2 hf)))
        obtain ⟨hlt', hvalue', hnext'⟩ :=
          separated_of_comma item' hstop' hd ((hbehind.atPunct (by decide)).trans hsep)
        obtain ⟨htail, hlast⟩ :=
          ih _ (hn ▸ Nat.lt_of_lt_of_le (size_advance_lt_of_atPunct hsep) (item c hc).le) hlt hlt'
            (hbehind.next (atEnd_eq_false_of_atPunct hsep)).2 hok rfl
        rw [hvalue, hvalue', hnext, hnext']
        exact ⟨congrArg₂ List.cons hfirst htail, hlast⟩
      by_cases hclose : (item c hc).next.atPunct close = true
      · rw [separated_of_close item hstop hc hsep hclose] at hok ⊢
        obtain ⟨hfirst, hbehind⟩ := hturn fun hf => hok ((Onward.expectPunct _ _).failed hf)
        rw [separated_of_close item' hstop' hd (by rwa [hbehind.atPunct (by decide)])
          ((hbehind.atPunct hmark).trans hclose)]
        exact ⟨congrArg (fun t => [t]) hfirst, hbehind⟩
      · exact absurd ((Onward.expectPunct _ _).failed
          (failed_separated item hstop hc hsep hclose)) hok

/-! ## Objects, lists and calls -/

theorem tallies_entry {value : Token → (e : Cursor) → e.size < c.size → Parsed e Expr}
    {value' : Token → (e : Cursor) → e.size < d.size → Parsed e Expr}
    (hvalue : ∀ t u, t.Alike u → PartsTally Expr.withoutSpans (value t) (value' u)) :
    (c.entry value).Tallies (Option.map Expr.bareEntry) (d.entry value') := by
  unfold entry
  by_cases hc : c.peek.isName = true
  · have hend := atEnd_eq_false_of_isName hc
    have hcolon (e : Cursor) : Onward e.advance (e.advance.expectPunct ":") := .expectPunct _ _
    have hlt : (c.advance.expectPunct ":").size < c.size :=
      Nat.lt_of_le_of_lt (size_expectPunct_le _ _) (size_advance_lt hend)
    have hread := (hvalue c.peek c.peek ⟨rfl, rfl⟩).onward _ hlt
    rw [dif_pos hc]
    refine ⟨(((Onward.advance c).trans (hcolon c)).trans hread).trans (.eatPunct _ _),
      fun hab hok => ?_⟩
    obtain ⟨halike, hnext⟩ := hab.next hend
    have hd : d.peek.isName = true := (hab.peek .isName).trans hc
    have hlt' : (d.advance.expectPunct ":").size < d.size :=
      Nat.lt_of_le_of_lt (size_expectPunct_le _ _) (size_advance_lt (atEnd_eq_false_of_isName hd))
    rw [dif_pos hd]
    have hmid := fun h => hok ((Onward.eatPunct _ ",").failed h)
    obtain ⟨-, hbehind⟩ :=
      (Parse.Tallies.expectPunct ":" _ _).tally hnext fun h => hmid (hread.failed h)
    obtain ⟨hsame, hafter⟩ :=
      ((hvalue _ _ halike).tally _ _ hlt hlt').tally hbehind hmid
    refine ⟨?_, ((Parse.Tallies.eatPunct (by decide) _ _).tally hafter hok).2⟩
    simp only [Option.map_some, Expr.bareEntry, halike.text, hsame]
  · rw [dif_neg hc]
    refine ⟨.refl c, fun hab _ => ?_⟩
    rw [dif_neg (by rwa [hab.peek .isName])]
    exact ⟨rfl, hab⟩

section

variable {sub : (e : Cursor) → e.size < c.size → Parsed e Expr}
  {sub' : (e : Cursor) → e.size < d.size → Parsed e Expr}

theorem tallies_objectWith (hsub : PartsTally Expr.withoutSpans sub sub') :
    (c.objectWith sub).Tallies Expr.withoutSpans (d.objectWith sub') := by
  have hentry (e e' : Cursor) (he : e.size < c.size) (he' : e'.size < d.size) :
      (e.entry fun _ x hx => sub x (Nat.lt_trans hx he)).Tallies (Option.map Expr.bareEntry)
        (e'.entry fun _ x hx => sub' x (Nat.lt_trans hx he')) :=
    tallies_entry fun _ _ _ =>
      ⟨fun x hx => hsub.onward x _, fun x x' hx hx' => hsub.tally x x' _ _⟩
  refine (tallies_block "an object entry" (f := Expr.bareEntry)
    ⟨fun e he => ?_, fun e e' he he' => hentry e e' he he'⟩).andThen
    fun entries entries' e e' _ _ h => .here fun _ => ?_
  · exact (yields_entry (Q := fun _ _ => True) fun x hx =>
      ⟨hsub.onward x _, fun _ _ => trivial⟩).onward
  · rw [← Expr.entriesWithoutSpans_eq, ← Expr.entriesWithoutSpans_eq] at h
    simp only [Expr.withoutSpans, h]

theorem tallies_arrayWith (hsub : PartsTally Expr.withoutSpans sub sub')
    (hopen : c.atPunct "[" = true) :
    (c.arrayWith sub).Tallies Expr.withoutSpans (d.arrayWith sub') := by
  have hlt := size_advance_lt_of_atPunct hopen
  unfold arrayWith
  rw [dif_pos hopen]
  refine ⟨((Onward.advance c).trans (onward_separated hsub.onward _ _ hlt)).trans
    (.expectPunct _ _), fun hab hok => ?_⟩
  have hopen' : d.atPunct "[" = true := (hab.atPunct (by decide)).trans hopen
  rw [dif_pos hopen']
  obtain ⟨hitems, hclose⟩ := separated_tally hsub (by decide) hlt
    (size_advance_lt_of_atPunct hopen') (hab.next (atEnd_eq_false_of_atPunct hopen)).2 hok
  refine ⟨?_, ((Parse.Tallies.expectPunct "]" _ _).tally hclose hok).2⟩
  simp only [Expr.withoutSpans, Expr.itemsWithoutSpans_eq, hitems]

theorem tallies_argumentWith {sub : (e : Cursor) → e.size ≤ c.size → Parsed e Expr}
    {sub' : (e : Cursor) → e.size ≤ d.size → Parsed e Expr}
    (hsub : ∀ e e' he he', (sub e he).Tallies Expr.withoutSpans (sub' e' he')) :
    (c.argumentWith sub).Tallies Expr.bareArgument (d.argumentWith sub') := by
  have hle (e : Cursor) : e.advance.advance.size ≤ e.size :=
    Nat.le_trans (size_advance_le _) (size_advance_le _)
  unfold argumentWith
  by_cases hc : (c.peek.isWord && c.second.isPunct ":") = true
  · obtain ⟨hword, hcolon⟩ := Bool.and_eq_true_iff.1 hc
    have hnamed := hsub c.advance.advance d.advance.advance (hle c) (hle d)
    rw [if_pos hc]
    refine ⟨((Onward.advance c).trans (.advance _)).trans hnamed.onward, fun hab hok => ?_⟩
    obtain ⟨halike, hnext⟩ := hab.next (atEnd_eq_false_of_isWord hword)
    rw [second_eq] at hcolon
    obtain ⟨-, hbehind⟩ := hnext.next (atEnd_eq_false_of_atPunct hcolon)
    rw [if_pos (by rwa [hab.peek .isWord, hab.second (.isPunct (by decide))])]
    obtain ⟨hvalue, hlast⟩ := hnamed.tally hbehind hok
    exact ⟨by simp only [Expr.bareArgument, halike.image, hvalue], hlast⟩
  · have hplain := hsub c d c.size_le_self d.size_le_self
    rw [if_neg hc]
    refine ⟨hplain.onward, fun hab hok => ?_⟩
    rw [if_neg (by rwa [hab.peek .isWord, hab.second (.isPunct (by decide))])]
    obtain ⟨hvalue, hlast⟩ := hplain.tally hab hok
    exact ⟨by simp only [Expr.bareArgument, hvalue], hlast⟩

theorem onward_argumentWith {sub : (e : Cursor) → e.size ≤ c.size → Parsed e Expr}
    (honward : ∀ e he, Onward e (sub e he).next) : Onward c (c.argumentWith sub).next := by
  unfold argumentWith
  split
  · exact ((Onward.advance c).trans (.advance _)).trans (honward _ _)
  · exact honward _ _

theorem tallies_callWith (hsub : PartsTally Expr.withoutSpans sub sub') :
    (c.callWith sub).Tallies Call.withoutSpans (d.callWith sub') := by
  unfold callWith
  by_cases hc : c.peek.isWord = true
  · have hlt := size_advance_lt (atEnd_eq_false_of_isWord hc)
    have hwords := tallies_calleeTail c.advance d.advance
    have hle : c.advance.calleeTail.next.size < c.size :=
      Nat.lt_of_le_of_lt c.advance.calleeTail.le hlt
    rw [dif_pos hc]
    dsimp only
    by_cases hopen : c.advance.calleeTail.next.atPunct "(" = true
    · have hargs := Nat.lt_trans (size_advance_lt_of_atPunct hopen) hle
      have hitems : PartsTally Expr.bareArgument
          (fun (e : Cursor) (he : e.size < c.size) =>
            e.argumentWith fun x hx => sub x (Nat.lt_of_le_of_lt hx he))
          (fun (e : Cursor) (he : e.size < d.size) =>
            e.argumentWith fun x hx => sub' x (Nat.lt_of_le_of_lt hx he)) :=
        ⟨fun e he => onward_argumentWith fun x hx => hsub.onward x _, fun e e' he he' =>
          tallies_argumentWith fun x x' hx hx' => hsub.tally x x' _ _⟩
      have hlist := onward_separated hitems.onward ")" "`,` or `)`" hargs
      rw [dif_pos hopen]
      refine ⟨((((Onward.advance c).trans hwords.onward).trans (.advance _)).trans hlist).trans
        (.expectPunct _ _), fun hab hok => ?_⟩
      -- Neither the list of arguments nor the words before it failed
      have hmid := fun h => hok ((Onward.expectPunct _ ")").failed (hlist.failed (failed_advance.2 h)))
      obtain ⟨halike, hnext⟩ := hab.next (atEnd_eq_false_of_isWord hc)
      obtain ⟨hcallee, hparen⟩ := hwords.tally hnext hmid
      have hd : d.peek.isWord = true := (hab.peek .isWord).trans hc
      have hopen' := (hparen.atPunct (by decide)).trans hopen
      rw [dif_pos hd]
      dsimp only
      rw [dif_pos hopen']
      obtain ⟨hvalues, hclose⟩ := separated_tally hitems (by decide) hargs
        (Nat.lt_trans (size_advance_lt_of_atPunct hopen')
          (Nat.lt_of_le_of_lt d.advance.calleeTail.le (size_advance_lt (atEnd_eq_false_of_isWord hd))))
        (hparen.next (atEnd_eq_false_of_atPunct hopen)).2 hok
      refine ⟨?_, ((Parse.Tallies.expectPunct ")" _ _).tally hclose hok).2⟩
      simp only [Call.withoutSpans, Expr.argsWithoutSpans_eq, hvalues, halike.image, hcallee]
    · rw [dif_neg hopen]
      exact .failed (((Onward.advance c).trans hwords.onward).trans (.unexpected _ _))
        (failed_unexpected _ _)
  · rw [dif_neg hc]
    exact .failed (.unexpected c _) (failed_unexpected c _)

/-! ## Expressions -/

theorem Abreast.startsCall (h : Abreast c d) : d.startsCall = c.startsCall := by
  unfold Cursor.startsCall
  rw [h.second (.isPunct (by decide)), h.second (.isPunct (by decide))]
  rcases h.next_or_ended with ⟨-, halike, -⟩ | ⟨hc, hd⟩
  · rw [halike.lexeme]
  · rw [hc, hd]

theorem failed_missingExpr (c : Cursor) : c.missingExpr.next.Failed := by
  have hreported := failed_unexpected c "an expression"
  unfold missingExpr
  dsimp only
  split
  · exact hreported
  · exact failed_advance.2 hreported

theorem tallies_parenWith (hsub : PartsTally Expr.withoutSpans sub sub')
    (hopen : c.atPunct "(" = true) (hopen' : d.atPunct "(" = true) :
    (c.parenWith hopen sub).Tallies Expr.withoutSpans (d.parenWith hopen' sub') := by
  have hinner := hsub.tally c.advance d.advance (size_advance_lt_of_atPunct hopen)
    (size_advance_lt_of_atPunct hopen')
  refine ⟨((Onward.advance c).trans hinner.onward).trans (.expectPunct _ _), fun hab hok => ?_⟩
  obtain ⟨hvalue, hclose⟩ := hinner.tally (hab.next (atEnd_eq_false_of_atPunct hopen)).2
    fun h => hok ((Onward.expectPunct _ ")").failed h)
  exact ⟨hvalue, ((Parse.Tallies.expectPunct ")" _ _).tally hclose hok).2⟩

theorem tallies_primaryWith (hsub : PartsTally Expr.withoutSpans sub sub')
    (hyields : ∀ e he, (sub e he).Yields Expr.WellFormed) :
    (c.primaryWith sub).Tallies Expr.withoutSpans (d.primaryWith sub') := by
  have hliteral : Token.Blind Literal.ofToken? := ⟨fun _ _ => rfl, rfl⟩
  refine ⟨(yields_primaryWith hyields).onward, fun hab => ?_⟩
  unfold primaryWith
  rw [hab.peek hliteral]
  cases hl : Literal.ofToken? c.peek with
  | some l =>
      have hend := atEnd_eq_false_of_ne hliteral hl (Option.some_ne_none l).symm
      exact fun _ => ⟨rfl, (hab.next hend).2⟩
  | none =>
      have hmark {mark : String} (h : mark ≠ closeBrace) :
          d.atPunct mark = true ↔ c.atPunct mark = true := by
        rw [hab.atPunct h]
      refine Parsed.Tallies.tally (f := Expr.withoutSpans) ?_ hab
      refine .ite (hmark (by decide)) (fun _ => tallies_objectWith hsub) fun _ => ?_
      refine .ite (hmark (by decide)) (tallies_arrayWith hsub) fun _ => ?_
      refine .dite (hmark (by decide)) (tallies_parenWith hsub) fun _ => ?_
      refine .ite (hmark (by decide)) (fun _ => Parse.Tallies.var c d) fun _ => ?_
      refine .ite (by rw [hab.targetHead?])
        (fun _ => (tallies_target c d).map fun t t' h => congrArg (Expr.target · default) h)
        fun _ => ?_
      refine .ite (by rw [hab.startsCall]) (fun _ => ?_)
        fun _ => .failed (yields_missingExpr c).onward (failed_missingExpr c)
      refine (tallies_callWith hsub).andThen fun call call' e e' _ _ h => .here fun _ => ?_
      exact congrArg (Expr.call · default) h

theorem unaryWith_of_none {operand : (e : Cursor) → e.size < c.size → Parsed e Expr}
    (h : UnaryOp.ofToken? c.peek = none) : c.unaryWith operand sub = c.primaryWith sub := by
  unfold unaryWith
  split
  · rename_i op hop
    rw [hop] at h
    cases h
  · rfl

theorem unaryWith_of_some (operand sub : (e : Cursor) → e.size < c.size → Parsed e Expr)
    {op : UnaryOp} (h : UnaryOp.ofToken? c.peek = some op) : ∃ hlt, c.unaryWith operand sub =
      ((operand c.advance hlt).andThen fun e d _ =>
        .here d (.unary op e (d.spanFrom c.here))).weaken c.size_advance_le := by
  refine ⟨size_advance_lt (atEnd_eq_false_of_peek (UnaryOp.isEnd_eq_false_of_ofToken? h)), ?_⟩
  unfold unaryWith
  split
  · rename_i op' hop
    obtain rfl : op = op' := Option.some.inj (h.symm.trans hop)
    rfl
  · rename_i hnone
    rw [hnone] at h
    cases h

theorem tallies_unaryWith {operand : (e : Cursor) → e.size < c.size → Parsed e Expr}
    {operand' : (e : Cursor) → e.size < d.size → Parsed e Expr}
    (hoperand : PartsTally Expr.withoutSpans operand operand')
    (hsub : PartsTally Expr.withoutSpans sub sub')
    (hyields : ∀ e he, (sub e he).Yields Expr.WellFormed) :
    (c.unaryWith operand sub).Tallies Expr.withoutSpans (d.unaryWith operand' sub') := by
  have hblind : Token.Blind UnaryOp.ofToken? := ⟨fun _ _ => rfl, rfl⟩
  cases hop : UnaryOp.ofToken? c.peek with
  | none =>
      rw [unaryWith_of_none hop]
      refine ⟨(yields_primaryWith hyields).onward, fun hab => ?_⟩
      rw [unaryWith_of_none ((hab.peek hblind).trans hop)]
      exact (tallies_primaryWith hsub hyields).tally hab
  | some op =>
      obtain ⟨hlt, heq⟩ := unaryWith_of_some operand sub hop
      rw [heq]
      refine ⟨(Onward.advance c).trans (hoperand.onward _ hlt), fun hab => ?_⟩
      obtain ⟨hlt', heq'⟩ := unaryWith_of_some operand' sub' ((hab.peek hblind).trans hop)
      have hend := atEnd_eq_false_of_peek (UnaryOp.isEnd_eq_false_of_ofToken? hop)
      rw [heq']
      refine Parsed.Tallies.tally (.behind hend ?_) hab
      exact (hoperand.tally _ _ hlt hlt').andThen fun e e' _ _ _ _ h => .here fun _ =>
        congrArg (Expr.unary op · default) h

end

theorem operators_of_some {bound level : Nat} (operand : (e : Cursor) → e.size < bound → Parsed e Expr)
    (left : Expr) {op : BinaryOp} {c : Cursor} (hc : c.size ≤ bound)
    (h : c.operatorAt? level = some op) : ∃ hlt hle hle', operators bound level operand left c hc =
      (operators bound level operand (.binary op left (operand c.advance hlt).value
          (left.span.through (operand c.advance hlt).value.span))
        (operand c.advance hlt).next hle).weaken hle' := by
  have hadvance := size_advance_lt (atEnd_eq_false_of_operatorAt? h)
  have hlt := Nat.lt_of_lt_of_le hadvance hc
  have hnext := Nat.le_trans (operand c.advance hlt).le (Nat.le_of_lt hadvance)
  refine ⟨hlt, Nat.le_trans hnext hc, hnext, ?_⟩
  rw [operators]
  split
  · rename_i hnone
    rw [hnone] at h
    cases h
  · rename_i op' hop
    obtain rfl : op = op' := Option.some.inj (h.symm.trans hop)
    rfl

theorem onward_operators {bound level : Nat} {operand : (e : Cursor) → e.size < bound → Parsed e Expr}
    (honward : ∀ e he, Onward e (operand e he).next) (left : Expr) {c : Cursor} (hc : c.size ≤ bound) :
    Onward c (operators bound level operand left c hc).next := by
  induction hn : c.size using Nat.strongRecOn generalizing c left with
  | _ n ih =>
      cases hop : c.operatorAt? level with
      | none =>
          rw [operators_of_none hc hop]
          exact .refl c
      | some op =>
          obtain ⟨hlt, hle, hle', heq⟩ := operators_of_some operand left hc hop
          have hadvance := size_advance_lt (atEnd_eq_false_of_operatorAt? hop)
          have hnext := (operand c.advance hlt).le
          rw [heq]
          exact ((Onward.advance c).trans (honward _ hlt)).trans (ih _ (by omega) _ hle rfl)

theorem tallies_operators {b b' level : Nat} {operand : (e : Cursor) → e.size < b → Parsed e Expr}
    {operand' : (e : Cursor) → e.size < b' → Parsed e Expr}
    (hoperand : PartsTally Expr.withoutSpans operand operand') {left left' : Expr}
    (hleft : left.withoutSpans = left'.withoutSpans) {c d : Cursor} (hc : c.size ≤ b)
    (hd : d.size ≤ b') :
    (operators b level operand left c hc).Tallies Expr.withoutSpans
      (operators b' level operand' left' d hd) := by
  refine ⟨onward_operators hoperand.onward left hc, ?_⟩
  induction hn : c.size using Nat.strongRecOn generalizing c d left left' with
  | _ n ih =>
      intro hab hok
      have hblind : Token.Blind BinaryOp.ofToken? := ⟨fun _ _ => rfl, rfl⟩
      have hsame : d.operatorAt? level = c.operatorAt? level := by
        rw [operatorAt?, operatorAt?, hab.peek hblind]
      cases hop : c.operatorAt? level with
      | none =>
          rw [operators_of_none hc hop, operators_of_none hd (hsame.trans hop)]
          exact ⟨hleft, hab⟩
      | some op =>
          obtain ⟨hlt, hle, hle', heq⟩ := operators_of_some operand left hc hop
          obtain ⟨hlt', hle'', _, heq'⟩ :=
            operators_of_some operand' left' hd (hsame.trans hop)
          have hadvance := size_advance_lt (atEnd_eq_false_of_operatorAt? hop)
          have hnext := (operand c.advance hlt).le
          rw [heq] at hok ⊢
          rw [heq']
          obtain ⟨hright, hbehind⟩ := (hoperand.tally _ _ hlt hlt').tally
            (hab.next (atEnd_eq_false_of_operatorAt? hop)).2
            fun h => hok ((onward_operators hoperand.onward _ hle).failed h)
          refine ih _ (by omega) ?_ hle hle'' rfl hbehind hok
          simp only [Expr.withoutSpans, hleft, hright]

theorem tallies_exprAt (level : Nat) (c d : Cursor) :
    (c.exprAt level).Tallies Expr.withoutSpans (d.exprAt level) := by
  induction hn : 7 * c.size + (topLevel - level) using Nat.strongRecOn generalizing c d level with
  | _ n ih =>
      rw [exprAt.eq_1 level c, exprAt.eq_1 level d]
      by_cases hlevel : level < topLevel
      · rw [if_pos hlevel, if_pos hlevel]
        refine (ih _ (by omega) (level + 1) c d rfl).andThen fun left left' e e' he he' hleft => ?_
        refine tallies_operators ⟨fun x hx => (yields_exprAt _ x).onward, fun x x' hx _ => ?_⟩ hleft _ _
        exact ih _ (by omega) (level + 1) x x' rfl
      · rw [if_neg hlevel, if_neg hlevel]
        -- Operands and inner expressions have fewer tokens before them
        have hsub (l : Nat) : PartsTally Expr.withoutSpans
            (fun (e : Cursor) (_ : e.size < c.size) => e.exprAt l)
            (fun (e : Cursor) (_ : e.size < d.size) => e.exprAt l) :=
          ⟨fun e _ => (yields_exprAt l e).onward,
            fun e e' he _ => ih _ (by simp only [topLevel] at *; omega) l e e' rfl⟩
        exact tallies_unaryWith (hsub topLevel) (hsub 0) fun e _ => yields_exprAt 0 e

theorem partsTally_expr {b b' : Nat} : PartsTally Expr.withoutSpans
    (fun (e : Cursor) (_ : e.size < b) => e.exprAt 0)
    (fun (e : Cursor) (_ : e.size < b') => e.exprAt 0) :=
  ⟨fun e _ => (yields_exprAt 0 e).onward, fun e e' _ _ => tallies_exprAt 0 e e'⟩

end Cursor

namespace Parse.Tallies

theorem expr : Parse.expr.Tallies Expr.withoutSpans Parse.expr :=
  Cursor.tallies_exprAt 0

theorem object : Parse.object.Tallies Expr.withoutSpans Parse.object :=
  fun _ _ => Cursor.tallies_objectWith Cursor.partsTally_expr

theorem call : Parse.call.Tallies Call.withoutSpans Parse.call :=
  fun _ _ => Cursor.tallies_callWith Cursor.partsTally_expr

end Parse.Tallies

end DiagramTour
