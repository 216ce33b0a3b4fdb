import DiagramTour.Proofs.Program.ReadsStep

/-!
# Reading printed rules, steps and scenes

A rule, a binding, a step and a scene take a block each.  What is printed of one between its header
and its closing brace are lines that are read one after the other.
-/

namespace DiagramTour

variable {α : Type} {c : Cursor} {rest cs mid tail : List Char} {w : String}

/-! ## Events -/

namespace EventSpec

/-- The event with an empty span. -/
def bare (e : EventSpec) : EventSpec :=
  { e with span := default }

end EventSpec

/-- A reserved word or a mark comes next, behind a blank. -/
structure OpensClause (tail : List Char) : Prop where
  fenced : Fenced tail
  coming : Coming tail fun t => t.lexeme = .keyword ∨ t.lexeme = .punct

theorem OpensClause.calm (h : OpensClause tail) : Calm tail :=
  h.coming.calm

theorem opensClause_brace (rest : List Char) : OpensClause (' ' :: '\x7b' :: rest) :=
  ⟨fenced_space _, .space (.punct (by decide) fun _ => .inr rfl)⟩

theorem opensClause_clause (hw : IsWord w.toList) (hlex : wordLexeme w = .keyword)
    (print : α → String) (o : Option α) (hrest : OpensClause rest) :
    OpensClause ((printClause w print o).toList ++ rest) := by
  cases o with
  | none => rwa [toList_printClause_none]
  | some a =>
    rw [toList_printClause_some]
    exact ⟨fenced_space _, .space (.word hw (fenced_space _) fun _ => .inl hlex)⟩

theorem EventKind.word (kind : EventKind) : IsWord kind.name.toList ∧
    wordLexeme kind.name = .identifier ∧ EventKind.ofName? kind.name = some kind := by
  cases kind <;> exact ⟨by decide, rfl, rfl⟩

/-- Where a clause comes next no quoted text does. -/
theorem OpensClause.not_isString (h : OpensClause tail) :
    Coming tail fun t => t.isString = false :=
  h.coming.imp fun t ht => by
    unfold Token.isString
    rcases ht with ht | ht <;> rw [ht]

/-- A delay begins with a digit, and so with no sign. -/
theorem Literal.IsDelay.calm {l : Literal} (h : l.IsDelay) (hrest : Fenced rest) :
    Calm (l.raw.toList ++ rest) := by
  obtain ⟨lexeme, himage, -, d, ds, hraw, hdigit⟩ := h
  refine calm_of_munches (himage.munches hrest) fun e es he => ?_
  rw [hraw] at he
  cases he
  exact ne_sign_of_isDigit hdigit

theorem Parse.delayOf?_congr {t u : Token} (hlex : t.lexeme = u.lexeme) (himage : t.image = u.image) :
    Parse.delayOf? t = Parse.delayOf? u := by
  unfold Parse.delayOf?
  rw [hlex, himage]

namespace Parse.Reads

/-- The kind of an event, and then what narrows it down. -/
theorem eventSpec_kind {kind : EventKind} {e : EventSpec} (hfenced : Fenced mid) (hcalm : Calm mid)
    (hdetails : ∀ start, (Parse.eventDetails ⟨some kind, none, none, none, .point start⟩).Reads mid rest
      fun e' => e'.bare = e.bare) :
    Parse.eventSpec.Reads (kind.name.toList ++ mid) rest fun e' => e'.bare = e.bare := by
  obtain ⟨hword, hlex, hkind⟩ := kind.word
  have hshows (c : Cursor) (hc : c.At (kind.name.toList ++ mid)) :
      c.Shows .identifier kind.name mid := hlex ▸ hc.word hword hfenced (.inr hcalm)
  refine see fun start => look true (fun c hc => ?_) (bind (next hshows) ?_)
  · simp [Token.isWord, (hshows c hc).lexeme]
  rintro t ⟨-, himage⟩
  rw [himage, hkind]
  simp only [Option.isNone_some, Bool.false_eq_true, if_false]
  refine bind (hdetails start) fun e' he' => spanned fun span => ?_
  exact he'

/-- The key of an event, if there is one. -/
theorem eventDetails_key (key : Option String) (start : Position) (htail : OpensClause tail) :
    (Parse.eventDetails ⟨some .key, none, none, none, .point start⟩).Reads
      ((printOptional quote key).toList ++ tail) tail
      fun e => e.bare = ⟨some .key, key, none, none, default⟩ := by
  cases key with
  | none =>
    rw [toList_printOptional_none]
    refine bind (optionalString_absent htail.not_isString) ?_
    rintro _ rfl
    exact pure rfl
  | some key =>
    rw [toList_printOptional_some]
    refine space (bind (optionalString key htail.calm) ?_)
    rintro _ rfl
    exact pure rfl

/-- The delay of an event, if there is one. -/
theorem eventDetails_timer {delay : Option Literal} (h : ∀ l, delay = some l → l.IsDelay)
    (start : Position) (htail : OpensClause tail) :
    (Parse.eventDetails ⟨some .timer, none, none, none, .point start⟩).Reads
      ((printOptional Literal.raw delay).toList ++ tail) tail
      fun e => e.bare = ⟨some .timer, none, delay, none, default⟩ := by
  cases delay with
  | none =>
    rw [toList_printOptional_none]
    intro c hc
    have hnone : Parse.delayOf? c.peek = none := by
      unfold Parse.delayOf?
      rcases htail.coming.peek c hc with h | h <;> rw [h]
    unfold Parse.eventDetails
    dsimp only
    rw [hnone]
    exact ⟨rfl, hc⟩
  | some delay =>
    rw [toList_printOptional_some]
    obtain ⟨lexeme, himage, hvalue, -⟩ := h delay rfl
    refine space fun c hc => ?_
    have hshows := hc.shows (himage.munches htail.fenced) (.inr htail.calm)
    rw [String.ofList_toList] at hshows
    have hsome : Parse.delayOf? c.peek = some delay := by
      rw [← hvalue]
      exact Parse.delayOf?_congr hshows.lexeme hshows.image
    unfold Parse.eventDetails
    dsimp only
    rw [hsome]
    exact ⟨rfl, hshows.next⟩

/-- The name of an event that the program defines. -/
theorem eventDetails_custom (name : String) (start : Position) (htail : OpensClause tail) :
    (Parse.eventDetails ⟨some .custom, none, none, none, .point start⟩).Reads
      ((printOptional quote (some name)).toList ++ tail) tail
      fun e => e.bare = ⟨some .custom, none, none, some name, default⟩ := by
  rw [toList_printOptional_some]
  refine space (bind (optionalString name htail.calm) ?_)
  rintro _ rfl
  exact pure rfl

theorem eventSpec {e : EventSpec} (h : e.WellFormed) (htail : OpensClause tail) :
    Parse.eventSpec.Reads (e.print.toList ++ tail) tail fun e' => e'.bare = e.bare := by
  obtain ⟨kind, key, delay, name, span⟩ := e
  have hquote (text : Option String) : Calm ((printOptional quote text).toList ++ tail) :=
    calm_optional htail.calm fun text _ => calm_quote text tail
  cases kind with
  | none => exact h.elim
  | some kind =>
    have htext : (EventSpec.print ⟨some kind, key, delay, name, span⟩).toList ++ tail =
        kind.name.toList ++ ((printOptional quote key).toList ++
          ((printOptional Literal.raw delay).toList ++
            ((printOptional quote name).toList ++ tail))) := by simp [EventSpec.print]
    rw [htext]
    cases kind with
    | click | hover =>
      obtain ⟨rfl, rfl, rfl⟩ := h
      simp only [toList_printOptional_none]
      exact eventSpec_kind htail.fenced htail.calm fun start => pure rfl
    | key =>
      obtain ⟨rfl, rfl⟩ := h
      simp only [toList_printOptional_none]
      exact eventSpec_kind (fenced_optional htail.fenced _ _) (hquote key)
        fun start => eventDetails_key key start htail
    | timer =>
      obtain ⟨rfl, rfl, hdelay⟩ := h
      simp only [toList_printOptional_none]
      exact eventSpec_kind (fenced_optional htail.fenced _ _)
        (calm_optional htail.calm fun l hl => (hdelay l hl).calm htail.fenced)
        fun start => eventDetails_timer hdelay start htail
    | custom =>
      obtain ⟨rfl, rfl, hname⟩ := h
      obtain ⟨name, rfl⟩ := Option.isSome_iff_exists.1 hname
      simp only [toList_printOptional_none]
      exact eventSpec_kind (fenced_optional htail.fenced _ _) (hquote (some name))
        fun start => eventDetails_custom name start htail

/-! ## Rules -/

/-- A target behind its word, if there is one. -/
theorem targetClause (t : Option Target) (hends : EndsOperand rest)
    (hrest : Coming rest fun t => t.isKeyword "target" = false) :
    Parse.targetClause.Reads ((printClause "target" Target.print t).toList ++ rest) rest
      fun t' => t'.map Target.withoutSpans = t.map Target.withoutSpans := by
  cases t with
  | none =>
    rw [toList_printClause_none]
    refine bind (eatKeyword_absent hrest) ?_
    rintro _ rfl
    exact pure rfl
  | some t =>
    rw [toList_printClause_some]
    refine space (bind (eatKeyword (by decide) rfl (fenced_space _)) ?_)
    rintro _ rfl
    refine space (bind (target t hends) fun t' ht' => pure ?_)
    simp [ht']

/-- An expression behind a word, if there is one. -/
theorem exprClause {e : Option Expr} (hw : IsWord w.toList) (hlex : wordLexeme w = .keyword)
    (h : ∀ e', e = some e' → e'.WellFormed) (hclear : e.all Expr.isClear = true)
    (hends : EndsExpr rest) (hrest : Coming rest fun t => t.isKeyword w = false) :
    (Parse.exprClause w).Reads ((printClause w Expr.print e).toList ++ rest) rest
      fun e' => e'.map Expr.withoutSpans = e.map Expr.withoutSpans := by
  cases e with
  | none =>
    rw [toList_printClause_none]
    refine bind (eatKeyword_absent hrest) ?_
    rintro _ rfl
    exact pure rfl
  | some e =>
    rw [toList_printClause_some]
    refine space (bind (eatKeyword hw hlex (fenced_space _)) ?_)
    rintro _ rfl
    refine space (bind (expr (h e rfl) (by simpa using hclear) hends) fun e' he' => pure ?_)
    simp [he']

end Parse.Reads

/-! ## Blocks of lines -/

theorem flatMap_printStatements (depth : Nat) (statements : List Statement) :
    (printStatements depth statements).toList =
      statements.flatMap fun s => (printLine depth s.print).toList := by
  rw [printStatements, toList_join, List.flatMap_map]

/-- The end of a block of lines. -/
theorem nextPart_close (n : Nat) (rest : List Char) :
    NextPart (List.replicate n ' ' ++ '\x7d' :: rest) :=
  (nextPart_brace rest).indent n

namespace Cursor

/-- The lines of a block up to its closing brace. -/
theorem readsItems_lines (rest : List Char) {item : Parse (Option α)} {f : α → α}
    {text : α → List Char} {xs : List α} {n : Nat} (hitem : ∀ x ∈ xs, ∀ mid, NextPart mid →
      NextPart (text x ++ mid) ∧ ReadsItem item (text x ++ mid) mid fun a => f a = f x) :
    ReadsItems item ('\n' :: (xs.flatMap text ++ (List.replicate n ' ' ++ '\x7d' :: rest))) rest
      fun as => as.map f = xs.map f :=
  ((ReadsItems.all rest xs (fun x hx mid hmid => (hitem x hx mid hmid).2)
    (fun x hx mid hmid => (hitem x hx mid hmid).1) (nextPart_close n rest)
      (ReadsItems.nil.indent n)).2).blank (by decide)

/-- A statement on its line. -/
theorem readsItem_statementLine {s : Statement} (h : s.kind.WellFormed) (hclear : s.isClear = true)
    (depth : Nat) (hmid : NextPart mid) :
    NextPart ((printLine depth s.print).toList ++ mid) ∧
      ReadsItem Parse.statement? ((printLine depth s.print).toList ++ mid) mid
        fun t => t.withoutSpans = s.withoutSpans := by
  rw [toList_printLine]
  obtain ⟨hnext, hitem⟩ := s.reads h hclear hmid
  exact ⟨hnext.indent _, hitem.indent _⟩

end Cursor

theorem Parse.Reads.statements {statements : List Statement} {n depth : Nat} {context : String}
    (h : ∀ s ∈ statements, s.kind.WellFormed) (hclear : statements.all Statement.isClear = true)
    (hcalm : Calm rest) :
    (Parse.block context Parse.statement?).Reads ('\x7b' :: '\n' ::
      ((printStatements depth statements).toList ++ (List.replicate n ' ' ++ '\x7d' :: rest))) rest
      fun ss => ss.map Statement.withoutSpans = statements.map Statement.withoutSpans := by
  rw [flatMap_printStatements]
  exact block (Cursor.readsItems_lines _ fun s hs mid hmid =>
    Cursor.readsItem_statementLine (h s hs) (List.all_eq_true.1 hclear s hs) depth hmid) hcalm

/-- The end of the last line is as good as read. -/
theorem Parse.Reads.throughLine {p : Parse α} {good : α → Prop}
    (h : p.Reads cs ('\n' :: rest) good) : p.Reads cs rest good :=
  fun c hc => ⟨(h c hc).1, (h c hc).2.lineFeed⟩

theorem Parse.Reads.rule {r : Rule} (h : r.WellFormed) (hclear : r.isClear = true) (depth : Nat)
    (hcalm : Calm mid) : Parse.rule.Reads ((r.print depth).toList ++ mid) mid
      fun r' => r'.withoutSpans = r.withoutSpans := by
  obtain ⟨hguard, hactions⟩ := Bool.and_eq_true_iff.1 hclear
  have htext : (r.print depth).toList ++ mid = List.replicate (2 * depth) ' ' ++ ("on".toList ++
      ' ' :: (r.event.print.toList ++ ((printClause "target" Target.print r.target).toList ++
        ((printClause "when" Expr.print r.guard).toList ++ ' ' :: '\x7b' :: '\n' ::
          ((printStatements (depth + 1) r.actions).toList ++
            (List.replicate (2 * depth) ' ' ++ '\x7d' :: '\n' :: mid)))))) := by
    rw [Rule.print, toList_printBlock]
    simp
  rw [htext]
  generalize hbody : '\x7b' :: '\n' :: ((printStatements (depth + 1) r.actions).toList ++
    (List.replicate (2 * depth) ' ' ++ '\x7d' :: '\n' :: mid)) = body
  have hbrace : ∃ x, body = '\x7b' :: x := ⟨_, hbody.symm⟩
  obtain ⟨x, hx⟩ := hbrace
  -- From the block back to the event: what each clause ends before
  have hends : EndsExpr (' ' :: body) := by
    rw [hx]
    exact ⟨fenced_space _, .space (.punct (by decide) fun _ => Token.endsExpr_punct rfl (by simp))⟩
  have hclause₂ : OpensClause ((printClause "when" Expr.print r.guard).toList ++ ' ' :: body) :=
    opensClause_clause (by decide) rfl _ _ (hx ▸ opensClause_brace x)
  have hends₂ : EndsExpr ((printClause "when" Expr.print r.guard).toList ++ ' ' :: body) :=
    endsExpr_clause (by decide) rfl (by decide) (by decide) _ _ hends
  have hwhen : Coming (' ' :: body) fun t => t.isKeyword "when" = false := by
    rw [hx]
    exact .space (.punct (by decide) fun _ => rfl)
  have htarget : Coming ((printClause "when" Expr.print r.guard).toList ++ ' ' :: body)
      fun t => t.isKeyword "target" = false := by
    cases r.guard with
    | none =>
      rw [toList_printClause_none, hx]
      exact .space (.punct (by decide) fun _ => rfl)
    | some e =>
      rw [toList_printClause_some]
      exact .space (.word (by decide) (fenced_space _) fun _ => rfl)
  refine throughLine (indent (see fun _ => ?_) _)
  refine bind (expectKeyword (by decide) rfl (fenced_space _)) fun _ _ => space ?_
  refine bind (eventSpec h.event (opensClause_clause (by decide) rfl _ _ hclause₂)) fun e he => ?_
  refine bind (targetClause r.target hends₂.operand htarget) fun t ht => ?_
  refine bind (exprClause (by decide) rfl h.guard hguard hends hwhen) fun g hg => space ?_
  rw [← hbody]
  refine bind (statements h.actions hactions hcalm.lineFeed) fun ss hss => spanned fun span => ?_
  simp only [Rule.withoutSpans, ht, hg, hss]
  exact congrArg (fun e => (⟨e, _, _, _, _⟩ : Rule)) he

/-! ## Bindings -/

namespace Parse

/-- A word that is not there is passed over. -/
theorem eatKeyword_bind_of_absent {f : Bool → Parse β} (h : c.atKeyword w = false) :
    (eatKeyword w >>= f) c = f false c := by
  simp only [bind_apply, eatKeyword, h, Bool.false_eq_true, if_false]
  rfl

/-- A word that is there is a token that was read. -/
theorem size_eatKeyword_lt (h : c.atKeyword w = true) : (eatKeyword w c).next.size < c.size := by
  unfold eatKeyword
  rw [if_pos h]
  exact Cursor.size_advance_lt (Cursor.atEnd_eq_false_of_atKeyword h)

/-- The part with empty spans. -/
def BindingPart.bare : BindingPart → BindingPart
  | rule r => rule r.withoutSpans
  | part => part

/-- A part on lines of its own. -/
def BindingPart.print (depth : Nat) : BindingPart → String
  | priority (some n) => printLine depth ("priority " ++ toString n.toInt)
  | rule r => r.print depth
  | _ => ""

theorem BindingPart.priorityOf_bare (parts : List BindingPart) :
    priorityOf (parts.map bare) = priorityOf parts := by
  unfold priorityOf
  rw [List.foldl_map]
  congr 1
  funext p part
  cases part <;> rfl

theorem BindingPart.rulesOf_bare (parts : List BindingPart) :
    rulesOf (parts.map bare) = (rulesOf parts).map Rule.withoutSpans := by
  unfold rulesOf
  rw [List.filterMap_map, List.map_filterMap]
  congr 1
  funext part
  cases part <;> rfl

/-- The parts of a binding, in the order in which they are printed. -/
def partsOfBinding (b : Binding) : List BindingPart :=
  (b.priority.map fun n => .priority (some n)).toList ++ b.rules.map .rule

theorem priorityOf_partsOfBinding (b : Binding) :
    BindingPart.priorityOf (partsOfBinding b) = b.priority := by
  unfold BindingPart.priorityOf partsOfBinding
  rw [List.foldl_append, List.foldl_map]
  -- The rules leave the priority as it is
  refine (List.foldl_fixed b.rules).trans ?_
  cases b.priority <;> rfl

theorem rulesOf_partsOfBinding (b : Binding) :
    BindingPart.rulesOf (partsOfBinding b) = b.rules := by
  unfold BindingPart.rulesOf partsOfBinding
  rw [List.filterMap_append, List.filterMap_map]
  cases b.priority <;> simp

theorem toList_print_binding (depth : Nat) (b : Binding) : (b.print depth).toList =
    (printBlock depth (printHeader "binding" b.name)
      (String.join ((partsOfBinding b).map (BindingPart.print (depth + 1))))).toList := by
  obtain ⟨name, priority, rules, span⟩ := b
  cases priority <;> simp [Binding.print, partsOfBinding, BindingPart.print, Function.comp_def]

end Parse

/-- The text begins with a word. -/
def OpensWith (w : String) (text : List Char) : Prop :=
  ∃ n cs, text = List.replicate n ' ' ++ (w.toList ++ cs) ∧ Fenced cs

theorem opensWith_line (depth : Nat) {text : String} (h : w.toList ++ [' '] <+: text.toList)
    (mid : List Char) : OpensWith w ((printLine depth text).toList ++ mid) := by
  obtain ⟨x, hx⟩ := h
  exact ⟨2 * depth, ' ' :: (x ++ '\n' :: mid), by rw [toList_printLine, ← hx]; simp, fenced_space _⟩

theorem opensWith_block (depth : Nat) {header : String} (body : String)
    (h : header = w ∨ w.toList ++ [' '] <+: header.toList) (mid : List Char) :
    OpensWith w ((printBlock depth header body).toList ++ mid) := by
  rw [toList_printBlock]
  rcases h with rfl | ⟨x, hx⟩
  · exact ⟨_, _, rfl, fenced_space _⟩
  · rw [← hx, List.append_assoc, List.append_assoc]
    exact ⟨_, _, rfl, fenced_space _⟩

theorem opensWith_header (depth : Nat) (name : Option String) (body : String) (mid : List Char) :
    OpensWith w ((printBlock depth (printHeader w name) body).toList ++ mid) := by
  refine opensWith_block depth body ?_ mid
  cases name with
  | none => exact .inl (by simp [printHeader, printOptional])
  | some name => exact .inr ⟨(printName name).toList, by simp [printHeader, printOptional]⟩

/-- One word is no other. -/
theorem Cursor.atKeyword_of_ne {v : String} (h : c.atKeyword w = true) (hne : w ≠ v) :
    c.atKeyword v = false := by
  unfold atKeyword Token.isKeyword at *
  split at h
  · rw [(beq_iff_eq.1 h : c.peek.image = w)]
    simpa using hne
  · rfl

namespace OpensWith

variable {text : List Char}

theorem nextPart (h : OpensWith w text) (hw : IsWord w.toList) (hlex : wordLexeme w = .keyword)
    (hmem : w ∈ partWords) : NextPart text := by
  obtain ⟨n, cs, rfl, hcs⟩ := h
  exact (nextPart_word hw hlex hmem hcs).indent n

theorem keyword (h : OpensWith w text) (hw : IsWord w.toList) (hlex : wordLexeme w = .keyword)
    (hc : c.At text) : c.peek.lexeme = .keyword ∧ c.peek.image = w := by
  obtain ⟨n, cs, rfl, hcs⟩ := h
  have hshows := hc.indent.keyword hw hlex hcs
  exact ⟨hshows.lexeme, hshows.image⟩

end OpensWith

namespace Cursor

variable {text : List Char} {item : Parse (Option α)} {p : Parse β} {good : β → Prop}

/-- What a reserved word opens is an item of a block. -/
theorem readsItem_of_keyword {g : β → α} (hopens : OpensWith w text) (hw : IsWord w.toList)
    (hlex : wordLexeme w = .keyword)
    (hitem : ∀ c : Cursor, c.atKeyword w = true → item c = (p c).map fun b => some (g b))
    (hlt : ∀ c : Cursor, c.atKeyword w = true → (p c).next.size < c.size)
    (hread : p.Reads text rest good) :
    ReadsItem item text rest fun a => ∃ b, a = g b ∧ good b := by
  intro c hc
  obtain ⟨hkey, himage⟩ := hopens.keyword hw hlex hc
  have hat : c.atKeyword w = true := by simp [atKeyword, Token.isKeyword, hkey, himage]
  obtain ⟨hgood, hend⟩ := hread c hc
  rw [hitem c hat]
  exact ⟨goesOn_of_isWord (by simp [Token.isWord, hkey]), hlt c hat, ⟨_, rfl, _, rfl, hgood⟩, hend⟩

/-! ### Bindings -/

theorem readsItem_priority (n : Int64) (depth : Nat) (hmid : NextPart mid) :
    NextPart ((Parse.BindingPart.print depth (.priority (some n))).toList ++ mid) ∧
      ReadsItem Parse.bindingPart? ((Parse.BindingPart.print depth (.priority (some n))).toList ++ mid)
        mid fun part => part.bare = .priority (some n) := by
  have htext : (Parse.BindingPart.print depth (.priority (some n))).toList ++ mid =
      List.replicate (2 * depth) ' ' ++ ("priority".toList ++
        ' ' :: ((toString n.toInt).toList ++ '\n' :: mid)) := by
    rw [Parse.BindingPart.print, toList_printLine]
    simp
  rw [htext]
  refine ⟨(nextPart_word (by decide) rfl (by decide) (fenced_space _)).indent _, .indent ?_ _⟩
  obtain ⟨value, himage⟩ := whole_toString n.toInt
  have hcalm : Calm ('\n' :: mid) := hmid.endsExpr.calm
  have hshows (c : Cursor) (hc : c.At ((toString n.toInt).toList ++ '\n' :: mid)) :
      c.Shows (.int value) (toString n.toInt) ('\n' :: mid) := by
    have h := hc.shows (himage.munches (fenced_lineFeed mid)) (.inr hcalm)
    rwa [String.ofList_toList] at h
  have hsemicolon : Coming ('\n' :: mid) fun t => t.isPunct ";" = false :=
    hmid.lineFeed.imp fun t ht => ht.isPunct (by decide)
  intro c hc
  have hshown := hc.keyword (by decide) rfl (fenced_space _)
  have hat : c.atKeyword "priority" = true := by simp [hshown.atKeyword]
  refine ⟨hshown.goesOn, Parse.size_bind_lt (Parse.size_eatKeyword_lt hat), ?_⟩
  refine Parse.Reads.bind (.eatKeyword (by decide) rfl (fenced_space _)) ?_ c hc
  rintro _ rfl
  refine .space (.look true (fun c hc => by simp [Token.isInt, (hshows c hc).lexeme]) ?_)
  refine .bind (.next hshows) ?_
  rintro t ⟨-, himage⟩
  refine .throughLine (.bind (.eatPunct_absent hsemicolon) fun _ _ => .pure ⟨_, rfl, ?_⟩)
  rw [himage, int64?_toString]
  rfl

theorem readsItem_rule {r : Rule} (h : r.WellFormed) (hclear : r.isClear = true) (depth : Nat)
    (hmid : NextPart mid) : NextPart ((r.print depth).toList ++ mid) ∧
      ReadsItem Parse.bindingPart? ((r.print depth).toList ++ mid) mid
        fun part => part.bare = .rule r.withoutSpans := by
  have hopens : OpensWith "on" ((r.print depth).toList ++ mid) :=
    opensWith_block depth _ (.inr (by simp)) mid
  refine ⟨hopens.nextPart (by decide) rfl (by decide), ?_⟩
  refine (readsItem_of_keyword (p := Parse.rule) (g := .rule) hopens (by decide) rfl (fun c hat => ?_)
    (fun c hat => Parse.size_declared_lt hat) (.rule h hclear depth hmid.calm)).imp ?_
  · rw [Parse.bindingPart?, Parse.eatKeyword_bind_of_absent (atKeyword_of_ne hat (by decide))]
    show (if c.atKeyword "on" then _ else _ : Parse (Option Parse.BindingPart)) c = _
    rw [if_pos hat]
    rfl
  · rintro _ ⟨r', rfl, hr'⟩
    exact congrArg Parse.BindingPart.rule hr'

end Cursor

namespace Parse.Reads

/-- A name behind the word of a block, if there is one. -/
theorem headerName (name : Option String) (rest : List Char) :
    Parse.optionalName.Reads ((printOptional printName name).toList ++ ' ' :: '\x7b' :: rest)
      ('\x7b' :: rest) (· = name) := by
  have hbrace : Coming (' ' :: '\x7b' :: rest) fun t => t.lexeme = .punct :=
    .space (.punct (by decide) fun _ => rfl)
  cases name with
  | none =>
    rw [toList_printOptional_none]
    intro c hc
    obtain ⟨hvalue, hnext⟩ := optionalName_absent hbrace c hc
    exact ⟨hvalue, hnext.space⟩
  | some name =>
    rw [toList_printOptional_some]
    intro c hc
    obtain ⟨hvalue, hnext⟩ := optionalName name (fenced_space _) hbrace.calm c hc.space
    exact ⟨hvalue, hnext.space⟩

/-- A block of lines behind a word and a name. -/
theorem headedBlock {item : Parse (Option α)} {context : String} {name : Option String}
    {f : Position → Option String → List α → Parse β} {G : List α → Prop} {good : β → Prop}
    {depth : Nat} {body : String} (hw : IsWord w.toList) (hlex : wordLexeme w = .keyword)
    (hitems : Cursor.ReadsItems item ('\n' :: (body.toList ++
      (List.replicate (2 * depth) ' ' ++ '\x7d' :: '\n' :: mid))) ('\n' :: mid) G)
    (hcalm : Calm mid) (hf : ∀ start parts, G parts →
      (f start name parts).Reads ('\n' :: mid) ('\n' :: mid) good) :
    (do
      let start ← Parse.start
      Parse.expectKeyword w
      let name ← Parse.optionalName
      let parts ← Parse.block context item
      f start name parts).Reads ((printBlock depth (printHeader w name) body).toList ++ mid) mid
        good := by
  have hfenced (rest : List Char) : Fenced ((printOptional printName name).toList ++ ' ' :: rest) :=
    fenced_optional (fenced_space rest) _ _
  rw [toList_printBlock, printHeader, String.toList_append, List.append_assoc]
  refine throughLine (indent (see fun start => ?_) _)
  refine bind (expectKeyword hw hlex (hfenced _)) fun _ _ => bind (headerName name _) ?_
  rintro _ rfl
  exact bind (block hitems hcalm.lineFeed) fun parts hparts => hf start parts hparts

theorem binding {b : Binding} (h : b.WellFormed) (hclear : b.isClear = true) (depth : Nat)
    (hcalm : Calm mid) : Parse.binding.Reads ((b.print depth).toList ++ mid) mid
      fun b' => b'.withoutSpans = b.withoutSpans := by
  rw [Parse.toList_print_binding]
  have hitem (part : Parse.BindingPart) (hpart : part ∈ Parse.partsOfBinding b) (mid : List Char)
      (hmid : NextPart mid) : NextPart ((part.print (depth + 1)).toList ++ mid) ∧
        Cursor.ReadsItem Parse.bindingPart? ((part.print (depth + 1)).toList ++ mid) mid
          fun part' => part'.bare = part.bare := by
    simp only [Parse.partsOfBinding, List.mem_append, Option.mem_toList, List.mem_map,
      Option.map_eq_some_iff] at hpart
    rcases hpart with ⟨n, -, rfl⟩ | ⟨r, hr, rfl⟩
    · exact Cursor.readsItem_priority n (depth + 1) hmid
    · exact Cursor.readsItem_rule (h r hr) (List.all_eq_true.1 hclear r hr) (depth + 1) hmid
  refine headedBlock (by decide) rfl (G := fun parts =>
    parts.map Parse.BindingPart.bare = (Parse.partsOfBinding b).map Parse.BindingPart.bare)
    ?_ hcalm fun start parts hparts => spanned fun span => ?_
  · rw [toList_join, List.flatMap_map]
    exact Cursor.readsItems_lines _ hitem
  · have hpriority : Parse.BindingPart.priorityOf parts = b.priority := by
      rw [← Parse.BindingPart.priorityOf_bare, hparts, Parse.BindingPart.priorityOf_bare,
        Parse.priorityOf_partsOfBinding]
    have hrules : (Parse.BindingPart.rulesOf parts).map Rule.withoutSpans =
        b.rules.map Rule.withoutSpans := by
      rw [← Parse.BindingPart.rulesOf_bare, hparts, Parse.BindingPart.rulesOf_bare,
        Parse.rulesOf_partsOfBinding]
    simp [Binding.withoutSpans, hpriority, hrules]

end Parse.Reads

/-! ## Steps -/

namespace Parse

/-- The part with empty spans. -/
def StepPart.bare : StepPart → StepPart
  | statement s => statement s.withoutSpans
  | binding b => binding b.withoutSpans

/-- A part on lines of its own. -/
def StepPart.print (depth : Nat) : StepPart → String
  | statement s => printLine depth s.print
  | binding b => b.print depth

theorem StepPart.statementsOf_bare (parts : List StepPart) :
    statementsOf (parts.map bare) = (statementsOf parts).map Statement.withoutSpans := by
  unfold statementsOf
  rw [List.filterMap_map, List.map_filterMap]
  congr 1
  funext part
  cases part <;> rfl

theorem StepPart.bindingsOf_bare (parts : List StepPart) :
    bindingsOf (parts.map bare) = (bindingsOf parts).map Binding.withoutSpans := by
  unfold bindingsOf
  rw [List.filterMap_map, List.map_filterMap]
  congr 1
  funext part
  cases part <;> rfl

/-- The parts of a step, in the order in which they are printed. -/
def partsOfStep (s : Step) : List StepPart :=
  s.statements.map .statement ++ s.bindings.map .binding

theorem statementsOf_partsOfStep (s : Step) :
    StepPart.statementsOf (partsOfStep s) = s.statements := by
  unfold StepPart.statementsOf partsOfStep
  rw [List.filterMap_append, List.filterMap_map, List.filterMap_map]
  simp

theorem bindingsOf_partsOfStep (s : Step) : StepPart.bindingsOf (partsOfStep s) = s.bindings := by
  unfold StepPart.bindingsOf partsOfStep
  rw [List.filterMap_append, List.filterMap_map, List.filterMap_map]
  simp

theorem toList_print_step (depth : Nat) (s : Step) : (s.print depth).toList =
    (printBlock depth ("step " ++ printName s.name ++ printClause "as" quote s.title)
      (String.join ((partsOfStep s).map (StepPart.print (depth + 1))))).toList := by
  simp [Step.print, partsOfStep, StepPart.print, printStatements, Function.comp_def]

end Parse

/-- The word of a binding opens no statement. -/
theorem Parse.statement?_of_binding (h : c.atKeyword "binding" = true) :
    Parse.statement? c = .here c none := by
  unfold Cursor.atKeyword Token.isKeyword at h
  split at h
  · rename_i hlex
    have hnone : Parse.statementKind? c.peek.image = none := by
      rw [(beq_iff_eq.1 h : c.peek.image = "binding")]
      rfl
    unfold Parse.statement?
    rw [hlex]
    dsimp only
    rw [hnone]
  · cases h

namespace Cursor

theorem readsItem_statementPart {s : Statement} (h : s.kind.WellFormed) (hclear : s.isClear = true)
    (depth : Nat) (hmid : NextPart mid) :
    NextPart ((printLine depth s.print).toList ++ mid) ∧
      ReadsItem Parse.stepPart? ((printLine depth s.print).toList ++ mid) mid
        fun part => part.bare = .statement s.withoutSpans := by
  obtain ⟨hnext, hitem⟩ := readsItem_statementLine h hclear depth hmid
  refine ⟨hnext, fun c hc => ?_⟩
  obtain ⟨hopen, hlt, ⟨t, ht, hgood⟩, hend⟩ := hitem c hc
  -- A binding would not have been read as a statement
  have hbinding : c.atKeyword "binding" = false := by
    by_contra hat
    rw [Parse.statement?_of_binding (by simpa using hat)] at ht
    cases ht
  have hpart : Parse.stepPart? c = (Parse.statement? c).map (·.map .statement) := by
    show (if c.atKeyword "binding" then _ else _ : Parse (Option Parse.StepPart)) c = _
    rw [hbinding]
    rfl
  rw [hpart]
  refine ⟨hopen, hlt, ⟨.statement t, ?_, congrArg Parse.StepPart.statement hgood⟩, hend⟩
  rw [Parsed.map_value, ht]
  rfl

theorem readsItem_bindingPart {b : Binding} (h : b.WellFormed) (hclear : b.isClear = true)
    (depth : Nat) (hmid : NextPart mid) :
    NextPart ((b.print depth).toList ++ mid) ∧
      ReadsItem Parse.stepPart? ((b.print depth).toList ++ mid) mid
        fun part => part.bare = .binding b.withoutSpans := by
  have hopens : OpensWith "binding" ((b.print depth).toList ++ mid) :=
    opensWith_header depth b.name _ mid
  refine ⟨hopens.nextPart (by decide) rfl (by decide), ?_⟩
  refine (readsItem_of_keyword (p := Parse.binding) (g := .binding) hopens (by decide) rfl
    (fun c hat => ?_) (fun c hat => Parse.size_declared_lt hat)
    (.binding h hclear depth hmid.calm)).imp ?_
  · show (if c.atKeyword "binding" then _ else _ : Parse (Option Parse.StepPart)) c = _
    rw [if_pos hat]
    rfl
  · rintro _ ⟨b', rfl, hb'⟩
    exact congrArg Parse.StepPart.binding hb'

end Cursor

namespace Parse.Reads

/-- A title behind its word, if there is one. -/
theorem titleClause (title : Option String) (rest : List Char) :
    Parse.titleClause.Reads ((printClause "as" quote title).toList ++ ' ' :: '\x7b' :: rest)
      (' ' :: '\x7b' :: rest) (· = title) := by
  have hbrace : Coming (' ' :: '\x7b' :: rest) fun t => t.isKeyword "as" = false :=
    .space (.punct (by decide) fun _ => rfl)
  cases title with
  | none =>
    rw [toList_printClause_none]
    refine bind (eatKeyword_absent hbrace) ?_
    rintro _ rfl
    exact pure rfl
  | some title =>
    rw [toList_printClause_some]
    refine space (bind (eatKeyword (by decide) rfl (fenced_space _)) ?_)
    rintro _ rfl
    refine space (bind (optionalString title hbrace.calm) ?_)
    rintro _ rfl
    exact pure rfl

theorem step {s : Step} (h : s.WellFormed) (hclear : s.isClear = true) (depth : Nat)
    (hcalm : Calm mid) : Parse.step.Reads ((s.print depth).toList ++ mid) mid
      fun s' => s'.withoutSpans = s.withoutSpans := by
  obtain ⟨hstatements, hbindings⟩ := Bool.and_eq_true_iff.1 hclear
  have hitem (part : Parse.StepPart) (hpart : part ∈ Parse.partsOfStep s) (mid : List Char)
      (hmid : NextPart mid) : NextPart ((part.print (depth + 1)).toList ++ mid) ∧
        Cursor.ReadsItem Parse.stepPart? ((part.print (depth + 1)).toList ++ mid) mid
          fun part' => part'.bare = part.bare := by
    simp only [Parse.partsOfStep, List.mem_append, List.mem_map] at hpart
    rcases hpart with ⟨t, ht, rfl⟩ | ⟨b, hb, rfl⟩
    · exact Cursor.readsItem_statementPart (h.statements t ht)
        (List.all_eq_true.1 hstatements t ht) (depth + 1) hmid
    · exact Cursor.readsItem_bindingPart (h.bindings b hb)
        (List.all_eq_true.1 hbindings b hb) (depth + 1) hmid
  have hitems := Cursor.readsItems_lines ('\n' :: mid) (n := 2 * depth) hitem
  rw [← List.flatMap_map, ← toList_join] at hitems
  have htext : (s.print depth).toList ++ mid = List.replicate (2 * depth) ' ' ++ ("step".toList ++
      ' ' :: ((printName s.name).toList ++ ((printClause "as" quote s.title).toList ++
        ' ' :: '\x7b' :: '\n' ::
          ((String.join ((Parse.partsOfStep s).map (Parse.StepPart.print (depth + 1)))).toList ++
            (List.replicate (2 * depth) ' ' ++ '\x7d' :: '\n' :: mid))))) := by
    rw [Parse.toList_print_step, toList_printBlock]
    simp
  rw [htext]
  generalize String.join _ = body at *
  have htitle (x : List Char) :
      OpensClause ((printClause "as" quote s.title).toList ++ ' ' :: '\x7b' :: x) :=
    opensClause_clause (by decide) rfl quote s.title (opensClause_brace x)
  refine throughLine (indent (see fun start => ?_) _)
  refine bind (expectKeyword (by decide) rfl (fenced_space _)) fun _ _ => space ?_
  refine bind (name? _ s.name (htitle _).fenced (htitle _).calm) ?_
  rintro _ rfl
  refine bind (titleClause s.title _) ?_
  rintro _ rfl
  refine space (bind (block hitems hcalm.lineFeed) fun parts hparts => spanned fun span => ?_)
  have hstatements : (Parse.StepPart.statementsOf parts).map Statement.withoutSpans =
      s.statements.map Statement.withoutSpans := by
    rw [← Parse.StepPart.statementsOf_bare, hparts, Parse.StepPart.statementsOf_bare,
      Parse.statementsOf_partsOfStep]
  have hbindings : (Parse.StepPart.bindingsOf parts).map Binding.withoutSpans =
      s.bindings.map Binding.withoutSpans := by
    rw [← Parse.StepPart.bindingsOf_bare, hparts, Parse.StepPart.bindingsOf_bare,
      Parse.bindingsOf_partsOfStep]
  simp [Step.withoutSpans, hstatements, hbindings]

/-! ## Scenes -/

theorem scene {s : Scene} (h : ∀ t ∈ s.steps, t.WellFormed) (hclear : s.steps.all Step.isClear = true)
    (depth : Nat) (hcalm : Calm mid) : Parse.scene.Reads
      ((printBlock depth (printHeader "scene" s.name)
        (String.join (s.steps.map (Step.print (depth + 1))))).toList ++ mid) mid
      fun s' => s'.withoutSpans = s.withoutSpans := by
  have hitem (t : Step) (ht : t ∈ s.steps) (mid : List Char) (hmid : NextPart mid) :
      NextPart ((t.print (depth + 1)).toList ++ mid) ∧ Cursor.ReadsItem (do
        if ← Parse.look (·.atKeyword "step") then return some (← Parse.step) else return none)
        ((t.print (depth + 1)).toList ++ mid) mid fun t' => t'.withoutSpans = t.withoutSpans := by
    have hopens : OpensWith "step" ((t.print (depth + 1)).toList ++ mid) :=
      opensWith_block (depth + 1) _ (.inr (by simp)) mid
    refine ⟨hopens.nextPart (by decide) rfl (by decide), ?_⟩
    refine (Cursor.readsItem_of_keyword (p := Parse.step) (g := id) hopens (by decide) rfl
      (fun c hat => ?_) (fun c hat => Parse.size_declared_lt hat)
      (step (h t ht) (List.all_eq_true.1 hclear t ht) (depth + 1) hmid.calm)).imp ?_
    · show (if c.atKeyword "step" then _ else _ : Parse (Option Step)) c = _
      rw [if_pos hat]
      rfl
    · rintro _ ⟨t', rfl, ht'⟩
      exact ht'
  have hitems := Cursor.readsItems_lines ('\n' :: mid) (n := 2 * depth) hitem
  rw [← List.flatMap_map, ← toList_join] at hitems
  refine headedBlock (by decide) rfl hitems hcalm fun start steps hsteps => spanned fun span => ?_
  simp [Scene.withoutSpans, hsteps]

end Parse.Reads

end DiagramTour
