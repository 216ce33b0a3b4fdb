import DiagramTour.Proofs.Program.Reads
import DiagramTour.Proofs.Program.Targets

/-!
# Reading printed targets

A printed target is read as the same target wherever no arrow follows it.
-/

namespace DiagramTour

variable {c : Cursor} {rest cs : List Char}

/-! ## What may follow an operand -/

/-- The token neither goes on with a path nor with an edge. -/
def Token.EndsOperand (t : Token) : Prop :=
  t.isOperator "->" = false ∧ t.isPunct "." = false

/-- The text ends an operand before it. -/
structure EndsOperand (rest : List Char) : Prop where
  fenced : Fenced rest
  coming : Coming rest Token.EndsOperand

theorem EndsOperand.calm (h : EndsOperand rest) : Calm rest :=
  h.coming.calm

theorem endsOperand_comma (rest : List Char) : EndsOperand (',' :: rest) :=
  ⟨fenced_comma rest, .punct (by decide) fun _ => ⟨rfl, rfl⟩⟩

theorem endsOperand_paren (rest : List Char) : EndsOperand (')' :: rest) :=
  ⟨fenced_paren rest, .punct (by decide) fun _ => ⟨rfl, rfl⟩⟩

/-! ## Operators -/

/-- An operator in front of a fence. -/
theorem Cursor.At.operator {op : String} (h : c.At (op.toList ++ rest))
    (hop : Image op.toList .operator) (hrest : Fenced rest) : c.Shows .operator op rest := by
  have hshows := h.shows (hop.munches hrest) (.inl rfl)
  rwa [String.ofList_toList] at hshows

theorem Cursor.Shows.atOperator {op : String} (h : c.Shows .operator op rest) (o : String) :
    c.atOperator o = (op == o) := by
  simp [Cursor.atOperator, Token.isOperator, h.lexeme, h.image]

theorem image_star : Image "*".toList .operator :=
  ⟨{ lexeme := .operator, length := 1, length_pos := Nat.one_pos }, rfl, rfl, rfl, rfl⟩

theorem image_equals : Image "=".toList .operator :=
  ⟨{ lexeme := .operator, length := 1, length_pos := Nat.one_pos }, rfl, rfl, rfl, rfl⟩

/-! ## References -/

namespace Parse.Reads

theorem elementRef (ref : ElementRef) (hrest : Fenced rest) (hcalm : Calm rest) :
    Parse.elementRef.Reads (ref.print.toList ++ rest) rest (· = ref) := by
  intro c hc
  unfold Parse.elementRef
  cases ref with
  | named id =>
    obtain ⟨lexeme, hshows, hlex⟩ := hc.name hrest hcalm
    obtain ⟨hname, htext, hnext⟩ := hc.isName hrest hcalm
    have hstar : c.atOperator "*" = false := by
      rcases hlex with ⟨rfl, -⟩ | rfl <;>
        simp [Cursor.atOperator, Token.isOperator, hshows.lexeme]
    rw [hstar, hname]
    exact ⟨by rw [← htext]; rfl, hnext⟩
  | wildcard =>
    have hshows : c.Shows .operator "*" rest := hc.operator image_star hrest
    rw [hshows.atOperator, if_pos (by decide)]
    exact ⟨rfl, hshows.next⟩

theorem edgeRef (ref : EdgeRef) (hrest : EndsOperand rest) :
    Parse.edgeRef.Reads (ref.print.toList ++ rest) rest (· = ref) := by
  cases ref with
  | byId ref =>
    have hparen : ∀ c : Cursor, c.At (ref.print.toList ++ rest) → c.atPunct "(" = false := by
      intro c hc
      cases ref with
      | named id =>
        obtain ⟨lexeme, hshows, ⟨rfl, -⟩ | rfl⟩ := hc.name hrest.fenced hrest.calm <;>
          simp [Cursor.atPunct, Token.isPunct, hshows.lexeme]
      | wildcard =>
        have hshows := hc.operator image_star hrest.fenced
        simp [Cursor.atPunct, Token.isPunct, hshows.lexeme]
    refine look false hparen (bind (elementRef ref hrest.fenced hrest.calm) ?_)
    rintro _ rfl
    exact look false (fun c hc => (hrest.coming.peek c hc).1) (pure rfl)
  | between source destination =>
    have htext : (EdgeRef.between source destination).print.toList ++ rest =
        '(' :: (source.print.toList ++ ',' :: ' ' :: (destination.print.toList ++ ')' :: rest)) := by
      simp [EdgeRef.print]
    rw [htext]
    refine look true (fun c hc => ?_) (bind (eatPunct '(' rfl (by decide) (.inl (by decide))) ?_)
    · simp [hc.atPunct (by decide)]
    intro _ _
    refine bind (elementRef source (fenced_comma _) (endsOperand_comma _).calm) ?_
    rintro _ rfl
    refine bind (expectPunct ',' rfl (by decide) (.inl (by decide))) fun _ _ => space ?_
    refine bind (elementRef destination (fenced_paren _) (endsOperand_paren _).calm) ?_
    rintro _ rfl
    exact bind (expectPunct ')' rfl (by decide) (.inr hrest.calm)) fun _ _ => pure rfl

theorem targetText (text : String) (hcalm : Calm rest) :
    Parse.targetText.Reads ((quote text).toList ++ rest) rest (· = text) := by
  intro c hc
  have hshows := hc.quote hcalm
  have hstring : c.peek.isString = true := by simp [Token.isString, hshows.lexeme]
  unfold Parse.targetText
  rw [if_pos hstring]
  exact ⟨by simp [Token.text, hshows.lexeme], hshows.next⟩

end Parse.Reads

/-! ## Lists of targets -/

namespace Target

theorem membersWithoutSpans_eq (ts : List Target) : membersWithoutSpans ts = ts.map withoutSpans := by
  induction ts with
  | nil => rfl
  | cons t ts ih => simp [membersWithoutSpans, ih]

theorem printMembers_eq (ts : List Target) : printMembers ts = ts.map print := by
  induction ts with
  | nil => rfl
  | cons t ts ih => simp [printMembers, ih]

/-- The printed target is read as the target wherever it stands. -/
def IsReread (t : Target) : Prop :=
  ∀ rest, EndsOperand rest → ∀ c : Cursor, c.At (t.print.toList ++ rest) →
    c.targetHead?.isSome ∧ c.second.isPunct ":" = false ∧
      c.target.Reads rest fun u => u.withoutSpans = t.withoutSpans

end Target

namespace Cursor

theorem size_target_lt (h : c.targetHead?.isSome) : c.target.next.size < c.size := by
  obtain ⟨head, hhead⟩ := Option.isSome_iff_exists.1 h
  have hlt := size_advance_lt (atEnd_eq_false_of_targetHead? hhead)
  rw [target]
  split
  · rename_i hnone
    rw [hnone] at hhead
    cases hhead
  · simp only [Parsed.weaken_next]
    exact Nat.lt_of_le_of_lt (Parsed.le _) hlt

theorem not_closing_of_targetHead? (h : c.targetHead?.isSome) :
    (c.atPunct ")" || c.atEnd) = false := by
  obtain ⟨head, hhead⟩ := Option.isSome_iff_exists.1 h
  rw [atEnd_eq_false_of_targetHead? hhead, Bool.or_false]
  unfold targetHead? at hhead
  unfold atPunct Token.isPunct
  split at hhead
  · rename_i hlex
    rw [hlex]
  · cases hhead

/-- The members of a list are read one after the other. -/
theorem reads_targetItems {ts : List Target} (hts : ∀ t ∈ ts, t.IsReread) {bound : Nat} {c : Cursor}
    (hc : c.At ((joinWith ", " (ts.map Target.print)).toList ++ ')' :: rest)) (hbound : c.size < bound) :
    (targetItems bound (fun e _ => e.target) c hbound).Reads (')' :: rest)
      fun us => us.map Target.withoutSpans = ts.map Target.withoutSpans := by
  induction ts generalizing c with
  | nil =>
    have hclose : c.atPunct ")" = true := by simp [Cursor.At.atPunct (d := ')') hc (by decide)]
    rw [targetItems, dif_pos (by simp [hclose])]
    exact ⟨rfl, hc⟩
  | cons t ts ih =>
    have ht := hts t List.mem_cons_self
    have hrest : ∀ u ∈ ts, u.IsReread := fun u hu => hts u (List.mem_cons_of_mem _ hu)
    cases ts with
    | nil =>
      obtain ⟨hhead, -, hvalue, hnext⟩ := ht _ (endsOperand_paren rest) c hc
      have hlt := size_target_lt hhead
      have hsep : c.target.next.atPunct "," = false := by simp [hnext.atPunct (by decide)]
      have hclose : c.target.next.atPunct ")" = true := by simp [hnext.atPunct (by decide)]
      rw [targetItems, dif_neg (by simp [not_closing_of_targetHead? hhead])]
      simp only [Nat.ne_of_lt hlt, hsep, hclose, if_false, if_true]
      exact ⟨by simp [hvalue], hnext⟩
    | cons u ts =>
      have htext : (joinWith ", " ((t :: u :: ts).map Target.print)).toList ++ ')' :: rest =
          t.print.toList ++ ',' :: ' ' ::
            ((joinWith ", " ((u :: ts).map Target.print)).toList ++ ')' :: rest) := by
        simp [joinWith]
      rw [htext] at hc
      obtain ⟨hhead, -, hvalue, hnext⟩ := ht _ (endsOperand_comma _) c hc
      have hlt := size_target_lt hhead
      have hsep : c.target.next.atPunct "," = true := by simp [hnext.atPunct (by decide)]
      have hshows := hnext.punct (by decide) (.inl (by decide))
      rw [targetItems, dif_neg (by simp [not_closing_of_targetHead? hhead])]
      simp only [Nat.ne_of_lt hlt, hsep, if_false, dite_true]
      obtain ⟨htail, hend⟩ := ih hrest hshows.next.space _
      exact ⟨by simp [hvalue, htail], hend⟩

/-- Targets between parentheses. -/
theorem reads_targetList {ts : List Target} (hts : ∀ t ∈ ts, t.IsReread) (hcalm : Calm rest)
    (hc : c.At ('(' :: ((joinWith ", " (ts.map Target.print)).toList ++ ')' :: rest))) :
    (c.targetList fun e _ => e.target).Reads rest
      fun us => us.map Target.withoutSpans = ts.map Target.withoutSpans := by
  have hopen : c.atPunct "(" = true := by simp [hc.atPunct (by decide)]
  have hshows := hc.punct (by decide) (.inl (by decide))
  obtain ⟨hvalue, hend⟩ := reads_targetItems hts hshows.next (size_advance_lt_of_atPunct hopen)
  rw [targetList, dif_pos hopen]
  exact ⟨hvalue, (Parse.Reads.expectPunct ')' rfl (by decide) (.inr hcalm) _ hend).2⟩

/-! ## Targets -/

/-- What is read behind the word of a target that begins at `start`. -/
def behindHead (start : Position) : TargetHead → Parse Target
  | .element kind => do return .element kind (← Parse.elementRef) (← Parse.spanFrom start)
  | .edge => do return .edge (← Parse.edgeRef) (← Parse.spanFrom start)
  | .matching key => do return .matching key (← Parse.targetText) (← Parse.spanFrom start)
  | .several how => do
      let members ← fun d => d.targetList fun e _ => e.target
      return .several how members (← Parse.spanFrom start)
  | .except => do
      let operands ← fun d => d.targetList fun e _ => e.target
      difference start operands

/-- A target is its word and what is read behind it. -/
theorem target_of_head {head : TargetHead} (h : c.targetHead? = some head) :
    c.target.value = (behindHead c.here head c.advance).value ∧
      c.target.next = (behindHead c.here head c.advance).next := by
  rw [target]
  split
  · rename_i hnone
    cases hnone.symm.trans h
  · rename_i head' hhead
    cases hhead.symm.trans h
    cases head <;> exact ⟨rfl, rfl⟩

end Cursor

/-- No colon stands where a reference does. -/
theorem ElementRef.not_colon (ref : ElementRef) (hrest : EndsOperand rest)
    (hc : c.At (ref.print.toList ++ rest)) : c.peek.isPunct ":" = false := by
  cases ref with
  | named id =>
    obtain ⟨lexeme, hshows, ⟨rfl, -⟩ | rfl⟩ := Cursor.At.name hc hrest.fenced hrest.calm <;>
      simp [Token.isPunct, hshows.lexeme]
  | wildcard =>
    have hshows := Cursor.At.operator hc image_star hrest.fenced
    simp [Token.isPunct, hshows.lexeme]

theorem EdgeRef.not_colon (ref : EdgeRef) (hrest : EndsOperand rest)
    (hc : c.At (ref.print.toList ++ rest)) : c.peek.isPunct ":" = false := by
  cases ref with
  | byId ref => exact ref.not_colon hrest hc
  | between source destination =>
    have htext : (EdgeRef.between source destination).print.toList ++ rest =
        '(' :: ((source.print ++ ", " ++ destination.print ++ ")").toList ++ rest) := by
      simp [EdgeRef.print]
    rw [htext] at hc
    exact hc.atPunct (by decide) ":"

/-- Behind the word that opens the target `t`, its text `behind` is read as the rest of it. -/
structure Target.IsRereadBehind (t : Target) (head : TargetHead) (behind : List Char) : Prop where
  fenced : ∀ rest, Fenced (behind ++ rest)
  not_colon : ∀ rest, EndsOperand rest → ∀ d : Cursor, d.At (behind ++ rest) →
    d.peek.isPunct ":" = false
  reads : ∀ rest, EndsOperand rest → ∀ start, (Cursor.behindHead start head).Reads (behind ++ rest)
    rest fun u => u.withoutSpans = t.withoutSpans

namespace Target

open Cursor

/-- A target is read again if what stands behind its word is. -/
theorem isReread_of_head {t : Target} {w : String} {head : TargetHead} {behind : List Char}
    (hhead : TargetHead.ofWord? w = some head) (hw : IsWord w.toList)
    (hlex : wordLexeme w = .keyword) (htext : t.print.toList = w.toList ++ behind)
    (hbehind : t.IsRereadBehind head behind) : t.IsReread := by
  intro rest hrest c hc
  rw [htext, List.append_assoc] at hc
  have hshows := hc.keyword hw hlex (hbehind.fenced rest)
  have hopens : c.targetHead? = some head := by
    rw [Cursor.targetHead?, hshows.lexeme, hshows.image]
    exact hhead
  obtain ⟨hvalue, hnext⟩ := target_of_head hopens
  refine ⟨by rw [hopens]; rfl, ?_, ?_⟩
  · rw [second_eq]
    exact hbehind.not_colon rest hrest _ hshows.next
  · rw [Parsed.Reads, hvalue, hnext]
    exact hbehind.reads rest hrest c.here c.advance hshows.next

theorem isRereadBehind_element (kind : ElementKind) (ref : ElementRef) (span : Span) :
    (element kind ref span).IsRereadBehind (.element kind) (' ' :: ref.print.toList) where
  fenced _ := fenced_space _
  not_colon _ hrest _ hd := ref.not_colon hrest (At.space hd)
  reads _ hrest _ := .space (.bind (.elementRef ref hrest.fenced hrest.calm) fun _ h =>
    .spanned fun _ => by simp [withoutSpans, h])

theorem isRereadBehind_edge (ref : EdgeRef) (span : Span) :
    (edge ref span).IsRereadBehind .edge (' ' :: ref.print.toList) where
  fenced _ := fenced_space _
  not_colon _ hrest _ hd := ref.not_colon hrest (At.space hd)
  reads _ hrest _ := .space (.bind (.edgeRef ref hrest) fun _ h =>
    .spanned fun _ => by simp [withoutSpans, h])

theorem isRereadBehind_matching (key : TextKey) (value : String) (span : Span) :
    (matching key value span).IsRereadBehind (.matching key) (' ' :: (quote value).toList) where
  fenced _ := fenced_space _
  not_colon _ hrest _ hd := by
    simp [Token.isPunct, (At.quote (At.space hd) hrest.calm).lexeme]
  reads _ hrest _ := .space (.bind (.targetText value hrest.calm) fun _ h =>
    .spanned fun _ => by simp [withoutSpans, h])

/-- The list of targets behind a word. -/
def listText (ts : List Target) : List Char :=
  '(' :: (joinWith ", " (ts.map print)).toList ++ [')']

theorem fenced_listText (ts : List Target) (rest : List Char) : Fenced (listText ts ++ rest) :=
  IsFence.fenced (by decide) (by decide) _

theorem not_colon_listText {ts : List Target} {d : Cursor} (hd : d.At (listText ts ++ rest)) :
    d.peek.isPunct ":" = false :=
  At.atPunct hd (by decide) ":"

theorem reads_listText {ts : List Target} (hts : ∀ u ∈ ts, u.IsReread) (hcalm : Calm rest) :
    Parse.Reads (fun d => d.targetList fun e _ => e.target) (listText ts ++ rest) rest
      fun us => us.map withoutSpans = ts.map withoutSpans :=
  fun _ hd => reads_targetList hts hcalm (by simpa [listText] using hd)

theorem isRereadBehind_several (how : Combination) {members : List Target}
    (hmembers : ∀ u ∈ members, u.IsReread) (span : Span) :
    (several how members span).IsRereadBehind (.several how) (listText members) where
  fenced := fenced_listText members
  not_colon _ _ _ := not_colon_listText
  reads _ hrest _ := .bind (reads_listText hmembers hrest.calm) fun _ h =>
    .spanned fun _ => by simp [withoutSpans, membersWithoutSpans_eq, h]

theorem isRereadBehind_except {base removed : Target} (hbase : base.IsReread)
    (hremoved : removed.IsReread) (span : Span) :
    (except base removed span).IsRereadBehind .except (listText [base, removed]) where
  fenced := fenced_listText _
  not_colon _ _ _ := not_colon_listText
  reads _ hrest start := by
    have hboth : ∀ t ∈ [base, removed], t.IsReread := by simp [hbase, hremoved]
    refine .bind (reads_listText hboth hrest.calm) fun us hus d hd => ?_
    -- Exactly two operands were read
    obtain ⟨a, as, rfl, ha, hone⟩ := List.map_eq_cons_iff.1 hus
    obtain ⟨b, bs, rfl, hb, hnone⟩ := List.map_eq_cons_iff.1 hone
    cases List.map_eq_nil_iff.1 hnone
    exact ⟨by simp [difference, withoutSpans, ha, hb], hd⟩

theorem isReread (t : Target) : t.IsReread := by
  induction t using induction_parts with
  | element kind ref span =>
    have htext : (element kind ref span).print.toList =
        kind.word.toList ++ ' ' :: ref.print.toList := by simp [print]
    have hbehind := isRereadBehind_element kind ref span
    cases kind <;> exact isReread_of_head rfl (by decide) rfl htext hbehind
  | edge ref span =>
    have hhead : TargetHead.ofWord? "edge" = some .edge := rfl
    exact isReread_of_head hhead (by decide) rfl (by simp [print]) (isRereadBehind_edge ref span)
  | matching key value span =>
    have htext : (matching key value span).print.toList =
        key.word.toList ++ ' ' :: (quote value).toList := by simp [print]
    have hbehind := isRereadBehind_matching key value span
    cases key <;> exact isReread_of_head rfl (by decide) rfl htext hbehind
  | several how members span ih =>
    have hbehind := isRereadBehind_several how ih span
    have htext : (several how members span).print.toList = how.word.toList ++ listText members := by
      simp [print, printMembers_eq, listText]
    cases how <;> exact isReread_of_head rfl (by decide) rfl htext hbehind
  | except base removed span hbase hremoved =>
    have hhead : TargetHead.ofWord? "except" = some .except := rfl
    exact isReread_of_head hhead (by decide) rfl (by simp [print, listText, joinWith])
      (isRereadBehind_except hbase hremoved span)

end Target

theorem Parse.Reads.target (t : Target) (hrest : EndsOperand rest) :
    Parse.target.Reads (t.print.toList ++ rest) rest fun u => u.withoutSpans = t.withoutSpans :=
  fun c hc => (t.isReread rest hrest c hc).2.2

end DiagramTour
