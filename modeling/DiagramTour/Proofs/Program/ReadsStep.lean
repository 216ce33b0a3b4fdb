import DiagramTour.Proofs.Program.ReadsExpr

/-!
# Reading printed statements

A printed statement takes one line.  It is read as the statement if the next line begins with the
word of a statement or of a binding, or closes the block.
-/

namespace DiagramTour

variable {α β : Type} {c : Cursor} {rest cs mid : List Char} {w : String}

/-! ## Lines -/

theorem toList_printLine (depth : Nat) (text : String) (rest : List Char) :
    (printLine depth text).toList ++ rest =
      List.replicate (2 * depth) ' ' ++ (text.toList ++ '\n' :: rest) := by
  simp [printLine]

theorem toList_printBlock (depth : Nat) (header body : String) (rest : List Char) :
    (printBlock depth header body).toList ++ rest =
      List.replicate (2 * depth) ' ' ++ (header.toList ++ ' ' :: '\x7b' :: '\n' ::
        (body.toList ++ (List.replicate (2 * depth) ' ' ++ '\x7d' :: '\n' :: rest))) := by
  simp [printBlock, printLine]

/-- The lines of a list, one after the other. -/
theorem toList_join (texts : List String) :
    (String.join texts).toList = texts.flatMap String.toList := by
  induction texts with
  | nil => simp
  | cons t ts ih => rw [String.join_cons, String.toList_append, ih, List.flatMap_cons]

/-- The token is one of these reserved words, or closes a block. -/
def Token.OpensLine (words : List String) (t : Token) : Prop :=
  t.lexeme = .keyword ∧ t.image ∈ words ∨ t.lexeme = .punct ∧ t.image = "\x7d"

/-- The words that a line in a block begins with, declarations apart. -/
def partWords : List String :=
  ["focus", "do", "let", "assert", "meta", "binding", "priority", "on", "step", "mermaid", "config",
   "assets", "camera", "overlay", "navigation", "performance"]

/-- A line in a block or the end of the block comes next. -/
def NextPart (mid : List Char) : Prop :=
  Coming mid (Token.OpensLine partWords)

theorem Token.OpensLine.endsExpr {t : Token} (h : t.OpensLine partWords) : t.EndsExpr := by
  rcases h with ⟨hlex, himage⟩ | ⟨hlex, himage⟩
  · refine Token.endsExpr_keyword hlex ?_ ?_ <;> intro heq <;> rw [heq] at himage <;>
      revert himage <;> decide
  · exact Token.endsExpr_punct hlex (by simp [himage])

theorem NextPart.endsExpr (h : NextPart mid) : EndsExpr ('\n' :: mid) :=
  ⟨fenced_lineFeed mid, h.lineFeed.imp fun _ h => h.endsExpr⟩

/-- The word is not one of those that begin a line. -/
theorem Token.OpensLine.isKeyword {t : Token} (h : t.OpensLine partWords) (hw : w ∉ partWords) :
    t.isKeyword w = false := by
  unfold Token.isKeyword
  rcases h with ⟨hlex, himage⟩ | ⟨hlex, himage⟩
  · rw [hlex]
    simp only [beq_eq_false_iff_ne, ne_eq]
    rintro rfl
    exact hw himage
  · rw [hlex]

theorem Token.OpensLine.isPunct {t : Token} (h : t.OpensLine partWords) {mark : String}
    (hmark : mark ≠ "\x7d") : t.isPunct mark = false := by
  unfold Token.isPunct
  rcases h with ⟨hlex, himage⟩ | ⟨hlex, himage⟩
  · rw [hlex]
  · rw [hlex, himage]
    simpa using hmark.symm

theorem nextPart_word (hw : IsWord w.toList) (hlex : wordLexeme w = .keyword) (hmem : w ∈ partWords)
    (hrest : Fenced rest) : NextPart (w.toList ++ rest) :=
  .word hw hrest fun _ => .inl ⟨hlex, hmem⟩

theorem nextPart_brace (rest : List Char) : NextPart ('\x7d' :: rest) :=
  .punct (by decide) fun _ => .inr ⟨rfl, rfl⟩

theorem NextPart.indent (h : NextPart mid) (n : Nat) : NextPart (List.replicate n ' ' ++ mid) :=
  Coming.indent h n

/-! ## Clauses -/

/-- A reserved word other than an operator ends an expression. -/
theorem endsExpr_word (hw : IsWord w.toList) (hlex : wordLexeme w = .keyword) (hor : w ≠ "or")
    (hand : w ≠ "and") (rest : List Char) : EndsExpr (' ' :: (w.toList ++ ' ' :: rest)) :=
  ⟨fenced_space _, .space (.word hw (fenced_space _) fun _ => Token.endsExpr_keyword hlex hor hand)⟩

theorem toList_printClause_some (word : String) (print : α → String) (a : α) (rest : List Char) :
    (printClause word print (some a)).toList ++ rest =
      ' ' :: (word.toList ++ ' ' :: ((print a).toList ++ rest)) := by
  simp [printClause]

theorem toList_printClause_none (word : String) (print : α → String) (rest : List Char) :
    (printClause word print (none : Option α)).toList ++ rest = rest := by
  simp [printClause]

theorem toList_printOptional_some (print : α → String) (a : α) (rest : List Char) :
    (printOptional print (some a)).toList ++ rest = ' ' :: ((print a).toList ++ rest) := by
  simp [printOptional]

theorem toList_printOptional_none (print : α → String) (rest : List Char) :
    (printOptional print (none : Option α)).toList ++ rest = rest := by
  simp [printOptional]

theorem fenced_optional (h : Fenced rest) (print : α → String) (o : Option α) :
    Fenced ((printOptional print o).toList ++ rest) := by
  cases o with
  | none => rwa [toList_printOptional_none]
  | some a =>
    rw [toList_printOptional_some]
    exact fenced_space _

theorem calm_optional (h : Calm rest) {print : α → String} {o : Option α}
    (ho : ∀ a, o = some a → Calm ((print a).toList ++ rest)) :
    Calm ((printOptional print o).toList ++ rest) := by
  cases o with
  | none => rwa [toList_printOptional_none]
  | some a =>
    rw [toList_printOptional_some]
    exact (ho a rfl).space

/-- A clause that may be missing ends an expression before it. -/
theorem endsExpr_clause (hw : IsWord w.toList) (hlex : wordLexeme w = .keyword) (hor : w ≠ "or")
    (hand : w ≠ "and") (print : α → String) (o : Option α) (hrest : EndsExpr rest) :
    EndsExpr ((printClause w print o).toList ++ rest) := by
  cases o with
  | none => rwa [toList_printClause_none]
  | some a =>
    rw [toList_printClause_some]
    exact endsExpr_word hw hlex hor hand _

/-! ## Settings -/

namespace Parse.Reads

variable {e : Expr}

/-- A token that is shown is read. -/
theorem next {lexeme : Lexeme} {image : String}
    (h : ∀ c : Cursor, c.At cs → c.Shows lexeme image rest) :
    Parse.next.Reads cs rest fun t => t.lexeme = lexeme ∧ t.image = image :=
  fun c hc => ⟨⟨(h c hc).lexeme, (h c hc).image⟩, (h c hc).next⟩

theorem isEntry_plain {entry : Entry Expr} (h : entry.value.WellFormed)
    (hclear : entry.value.isClear = true) : Expr.IsEntry (Parse.entryValue .plain) entry :=
  fun _ _ _ hrest => expr h hclear hrest

/-- Plain settings between braces. -/
theorem entries {entries : List (Entry Expr)} (h : ∀ e ∈ entries, e.value.WellFormed)
    (hclear : areClear entries = true) (hcalm : Calm rest) :
    (Parse.entries .plain).Reads ((printEntries entries).toList ++ rest) rest
      fun es => Expr.entriesWithoutSpans es = Expr.entriesWithoutSpans entries := by
  rw [printEntries, Expr.printEntries_eq]
  refine (settings (fun e he => isEntry_plain (h e he) (List.all_eq_true.1 hclear e he)) hcalm).imp
    fun es hes => ?_
  rwa [Expr.entriesWithoutSpans_eq, Expr.entriesWithoutSpans_eq]

/-- An object as the value of a clause. -/
theorem object (h : e.IsObject) (hclear : e.isClear = true) (hcalm : Calm rest) :
    Parse.object.Reads (e.print.toList ++ rest) rest fun e' => e'.withoutSpans = e.withoutSpans := by
  obtain ⟨entries, span, rfl, hentries⟩ := h
  intro c hc
  rw [Expr.print, Expr.printEntries_eq] at hc
  simp only [Expr.isClear, Expr.paths, Expr.entriesPaths_eq, List.all_flatMap,
    List.all_eq_true] at hclear
  obtain ⟨hvalues, hnext⟩ := settings
    (fun e he t _ rest hrest => expr (hentries e he)
      (by simpa [Expr.isClear] using hclear e he) hrest) hcalm c hc
  refine ⟨?_, hnext⟩
  show Expr.withoutSpans (.object _ _) = _
  rw [Expr.withoutSpans, Expr.withoutSpans, Expr.entriesWithoutSpans_eq,
    Expr.entriesWithoutSpans_eq]
  exact congrArg (Expr.object · default) hvalues

theorem call {call : Call Expr} (h : call.WellFormed)
    (hclear : call.args.all (fun a => a.value.isClear) = true) (hcalm : Calm rest) :
    Parse.call.Reads (call.print.toList ++ rest) rest
      fun call' => call'.withoutSpans = call.withoutSpans := by
  obtain ⟨⟨first, words, hcallee, hwords⟩, hnames, hargs⟩ := h
  intro c hc
  obtain ⟨⟨hvalue, hvalues⟩, hnext⟩ := Cursor.reads_callWith hcallee hwords hnames
    (fun a ha => ((hargs a ha).isReread (List.all_eq_true.1 hclear a ha)).1) hcalm hc
  refine ⟨?_, hnext⟩
  show Call.withoutSpans (Parse.call c).value = _
  rw [Call.withoutSpans, Call.withoutSpans, Expr.argsWithoutSpans_eq, Expr.argsWithoutSpans_eq]
  exact congrArg₂ Call.mk hvalue hvalues

/-! ## Statements -/

theorem metadata {m : Metadata} (h : m.WellFormed) (hclear : areClear m.entries = true)
    (hrest : Coming rest fun t => t.isPunct ";" = false) :
    Parse.metadata.Reads (m.print.toList ++ rest) rest
      fun m' => m'.withoutSpans = m.withoutSpans := by
  have htext : m.print.toList ++ rest =
      "meta".toList ++ ' ' :: ((printEntries m.entries).toList ++ rest) := by
    simp [Metadata.print]
  rw [htext]
  refine see fun _ => bind (expectKeyword (by decide) rfl (fenced_space _)) fun _ _ => space ?_
  refine bind (entries h hclear hrest.calm) fun es hes => ?_
  refine bind (eatPunct_absent hrest) fun _ _ => spanned fun span => ?_
  rw [Metadata.withoutSpans, Metadata.withoutSpans, hes]

theorem definition {d : Definition} (h : d.value.WellFormed) (hclear : d.value.isClear = true)
    (hrest : EndsExpr rest) : Parse.definition.Reads (d.print.toList ++ rest) rest
      fun d' => d'.withoutSpans = d.withoutSpans := by
  have htext : d.print.toList ++ rest = "let".toList ++ ' ' :: ((printName d.name).toList ++
      ' ' :: ("=".toList ++ ' ' :: (d.value.print.toList ++ rest))) := by
    simp [Definition.print]
  rw [htext]
  refine see fun _ => bind (expectKeyword (by decide) rfl (fenced_space _)) fun _ _ => space ?_
  have hcalm : Calm ("=".toList ++ ' ' :: (d.value.print.toList ++ rest)) :=
    calm_of_munches (image_equals.munches (fenced_space _)) fun d ds h => by
      obtain ⟨rfl, -⟩ : '=' = d ∧ _ := by simpa using h
      decide
  refine bind (name? _ _ (fenced_space _) hcalm.space) ?_
  rintro _ rfl
  refine look true (fun c hc => ?_) ?_
  · simp [(hc.space.operator image_equals (fenced_space _)).atOperator]
  refine bind (next fun c hc => hc.space.operator image_equals (fenced_space _)) fun _ _ => space ?_
  refine bind (expr h hclear hrest) fun e he => spanned fun span => ?_
  rw [Definition.withoutSpans, Definition.withoutSpans]
  simp [he]

/-- A setting of a focus comes before the others. -/
theorem focusSettings_pad {focus : Focus} {good : Focus → Prop} (h : e.WellFormed)
    (hclear : e.isClear = true) (hmid : EndsExpr mid)
    (hrest : ∀ e', e'.withoutSpans = e.withoutSpans → Parse.Reads
      (Parse.focusSettings { focus with pad := some e' }) mid rest good) :
    Parse.Reads (Parse.focusSettings focus)
      (' ' :: ("pad".toList ++ ' ' :: (e.print.toList ++ mid))) rest good := by
  intro c hc
  have hshows := hc.space.keyword (by decide) rfl (fenced_space _)
  obtain ⟨hvalue, hnext⟩ := expr h hclear hmid _ hshows.next.space
  rw [Parse.focusSettings, dif_pos (by simp [hshows.atKeyword])]
  exact hrest _ hvalue _ hnext

theorem focusSettings_align {focus : Focus} {good : Focus → Prop} {name : String}
    (hmid : EndsExpr mid)
    (hrest : Parse.Reads (Parse.focusSettings { focus with align := some name }) mid rest good) :
    Parse.Reads (Parse.focusSettings focus)
      (' ' :: ("align".toList ++ ' ' :: ((printName name).toList ++ mid))) rest good := by
  intro c hc
  have hshows := hc.space.keyword (by decide) rfl (fenced_space _)
  obtain ⟨hvalue, hnext⟩ := name? "an alignment" name hmid.fenced hmid.calm _ hshows.next.space
  rw [Parse.focusSettings, dif_neg (by simp [hshows.atKeyword]),
    dif_pos (by simp [hshows.atKeyword])]
  dsimp only
  rw [hvalue]
  exact hrest _ hnext

theorem focusSettings_lock {focus : Focus} {good : Focus → Prop} (h : e.WellFormed)
    (hclear : e.isClear = true) (hmid : EndsExpr mid)
    (hrest : ∀ e', e'.withoutSpans = e.withoutSpans → Parse.Reads
      (Parse.focusSettings { focus with lock := some e' }) mid rest good) :
    Parse.Reads (Parse.focusSettings focus)
      (' ' :: ("lock".toList ++ ' ' :: (e.print.toList ++ mid))) rest good := by
  intro c hc
  have hshows := hc.space.keyword (by decide) rfl (fenced_space _)
  obtain ⟨hvalue, hnext⟩ := expr h hclear hmid _ hshows.next.space
  rw [Parse.focusSettings, dif_neg (by simp [hshows.atKeyword]),
    dif_neg (by simp [hshows.atKeyword]), dif_pos (by simp [hshows.atKeyword])]
  exact hrest _ hvalue _ hnext

theorem focusSettings_end {focus : Focus} (hrest : NextPart mid) :
    Parse.Reads (Parse.focusSettings focus) ('\n' :: mid) ('\n' :: mid) (· = focus) := by
  intro c hc
  have hword (w : String) (hw : w ∉ partWords) : c.atKeyword w = false :=
    (hrest.lineFeed.peek c hc).isKeyword hw
  rw [Parse.focusSettings, dif_neg (by simp [hword "pad" (by decide)]),
    dif_neg (by simp [hword "align" (by decide)]), dif_neg (by simp [hword "lock" (by decide)])]
  exact ⟨rfl, hc⟩

theorem focus {f : Focus} (h : (StatementKind.focus f).WellFormed)
    (hpad : f.pad.all Expr.isClear = true) (hlock : f.lock.all Expr.isClear = true)
    (hmid : NextPart mid) :
    Parse.focus.Reads (f.target.print.toList ++ ((printClause "pad" Expr.print f.pad).toList ++
      ((printClause "align" printName f.align).toList ++
        ((printClause "lock" Expr.print f.lock).toList ++ '\n' :: mid)))) ('\n' :: mid)
      fun f' => (StatementKind.focus f').withoutSpans = (StatementKind.focus f).withoutSpans := by
  obtain ⟨target, pad, align, lock⟩ := f
  have hends₃ : EndsExpr ((printClause "lock" Expr.print lock).toList ++ '\n' :: mid) :=
    endsExpr_clause (by decide) rfl (by decide) (by decide) _ _ hmid.endsExpr
  have hends₂ : EndsExpr ((printClause "align" printName align).toList ++
      ((printClause "lock" Expr.print lock).toList ++ '\n' :: mid)) :=
    endsExpr_clause (by decide) rfl (by decide) (by decide) _ _ hends₃
  have hends₁ : EndsExpr ((printClause "pad" Expr.print pad).toList ++
      ((printClause "align" printName align).toList ++
        ((printClause "lock" Expr.print lock).toList ++ '\n' :: mid))) :=
    endsExpr_clause (by decide) rfl (by decide) (by decide) _ _ hends₂
  -- From the last setting to the first one
  have hlast (t : Target) (pad' : Option Expr) (align' : Option String) : Parse.Reads
      (Parse.focusSettings ⟨t, pad', align', none⟩)
      ((printClause "lock" Expr.print lock).toList ++ '\n' :: mid) ('\n' :: mid)
      fun g => ∃ lock', lock'.map Expr.withoutSpans = lock.map Expr.withoutSpans ∧
        g = ⟨t, pad', align', lock'⟩ := by
    cases lock with
    | none =>
      rw [toList_printClause_none]
      exact (focusSettings_end hmid).imp fun g hg => ⟨none, rfl, hg⟩
    | some e =>
      rw [toList_printClause_some]
      refine focusSettings_lock (h.2 e rfl) (by simpa using hlock) hmid.endsExpr fun e' he' => ?_
      exact (focusSettings_end hmid).imp fun g hg => ⟨some e', by simp [he'], hg⟩
  have hbefore (t : Target) (pad' : Option Expr) : Parse.Reads
      (Parse.focusSettings ⟨t, pad', none, none⟩)
      ((printClause "align" printName align).toList ++
        ((printClause "lock" Expr.print lock).toList ++ '\n' :: mid)) ('\n' :: mid)
      fun g => ∃ lock', lock'.map Expr.withoutSpans = lock.map Expr.withoutSpans ∧
        g = ⟨t, pad', align, lock'⟩ := by
    cases align with
    | none =>
      rw [toList_printClause_none]
      exact hlast t pad' none
    | some name =>
      rw [toList_printClause_some]
      exact focusSettings_align hends₃ (hlast t pad' (some name))
  refine bind (Parse.Reads.target target hends₁.operand) fun t ht => ?_
  cases pad with
  | none =>
    rw [toList_printClause_none]
    refine (hbefore t none).imp ?_
    rintro _ ⟨lock', hlock', rfl⟩
    simp [StatementKind.withoutSpans, ht, hlock']
  | some e =>
    rw [toList_printClause_some]
    refine focusSettings_pad (h.1 e rfl) (by simpa using hpad) hends₂ fun e' he' => ?_
    refine (hbefore t (some e')).imp ?_
    rintro _ ⟨lock', hlock', rfl⟩
    simp [StatementKind.withoutSpans, ht, he', hlock']

theorem assertion {condition : Expr} {message : Option Expr}
    (h : (StatementKind.assert condition message).WellFormed)
    (hclear : condition.isClear = true) (hmessage : message.all Expr.isClear = true)
    (hmid : NextPart mid) :
    Parse.assertion.Reads (condition.print.toList ++
      ((printClause "else" Expr.print message).toList ++ '\n' :: mid)) ('\n' :: mid)
      fun k => k.withoutSpans = (StatementKind.assert condition message).withoutSpans := by
  have hends : EndsExpr ((printClause "else" Expr.print message).toList ++ '\n' :: mid) :=
    endsExpr_clause (by decide) rfl (by decide) (by decide) _ _ hmid.endsExpr
  refine bind (expr h.1 hclear hends) fun e he => ?_
  cases message with
  | none =>
    rw [toList_printClause_none]
    have habsent : Coming ('\n' :: mid) fun t => t.isKeyword "else" = false :=
      hmid.lineFeed.imp fun t ht => ht.isKeyword (by decide)
    refine bind (eatKeyword_absent habsent) ?_
    rintro _ rfl
    exact pure (by simp [StatementKind.withoutSpans, he])
  | some m =>
    rw [toList_printClause_some]
    refine space (bind (eatKeyword (by decide) rfl (fenced_space _)) ?_)
    rintro _ rfl
    refine space (bind (expr (h.2 m rfl) (by simpa using hmessage) hmid.endsExpr) fun e' he' => ?_)
    exact pure (by simp [StatementKind.withoutSpans, he, he'])

end Parse.Reads

/-! ## Statements as lines -/

/-- What the first part has read the whole has read. -/
theorem Parse.size_bind_lt {p : Parse α} {f : α → Parse β} (h : (p c).next.size < c.size) :
    ((p >>= f) c).next.size < c.size :=
  Nat.lt_of_le_of_lt (f (p c).value (p c).next).le h

theorem Parse.size_map_lt {p : Parse α} {f : α → β} (h : (p c).next.size < c.size) :
    ((f <$> p) c).next.size < c.size :=
  h

/-- A reader whose declaration has its reserved word reads that word at least. -/
theorem Parse.size_declared_lt {f : Position → Unit → Parse α} (h : c.atKeyword w = true) :
    ((Parse.start >>= fun start => Parse.expectKeyword w >>= f start) c).next.size < c.size := by
  have hstep : ((Parse.expectKeyword w) c).next.size < c.size := by
    show (c.expectKeyword w).size < c.size
    rw [Cursor.expectKeyword, if_pos h]
    exact Cursor.size_advance_lt (Cursor.atEnd_eq_false_of_atKeyword h)
  exact size_bind_lt (f := f c.here) hstep

/-- Every statement reads its reserved word at least. -/
theorem Parse.size_statementKind?_lt {kind : Parse StatementKind}
    (hkind : Parse.statementKind? w = some kind) (h : c.atKeyword w = true) :
    (kind c).next.size < c.size := by
  have hnext : (Parse.next c).next.size < c.size :=
    Cursor.size_advance_lt (Cursor.atEnd_eq_false_of_atKeyword h)
  unfold Parse.statementKind? at hkind
  split at hkind <;> cases hkind
  · exact size_bind_lt hnext
  · exact size_bind_lt hnext
  · exact size_map_lt (size_declared_lt h)
  · exact size_bind_lt hnext
  · exact size_map_lt (size_declared_lt h)

namespace Cursor

/-- A statement that its reserved word opens is an item of a block. -/
theorem readsItem_statement {s : Statement} {kind : Parse StatementKind} (hw : IsWord w.toList)
    (hlex : wordLexeme w = .keyword) (hmem : w ∈ partWords)
    (hkind : Parse.statementKind? w = some kind)
    (hread : kind.Reads (w.toList ++ ' ' :: cs) ('\n' :: mid)
      fun k => k.withoutSpans = s.kind.withoutSpans) (hmid : NextPart mid) :
    NextPart (w.toList ++ ' ' :: cs) ∧ ReadsItem Parse.statement? (w.toList ++ ' ' :: cs) mid
      fun t => t.withoutSpans = s.withoutSpans := by
  refine ⟨nextPart_word hw hlex hmem (fenced_space cs), fun c hc => ?_⟩
  have hshows := hc.keyword hw hlex (fenced_space cs)
  have hat : c.atKeyword w = true := by simp [hshows.atKeyword]
  obtain ⟨hvalue, hnext⟩ := hread c hc
  have hsemicolon : Coming ('\n' :: mid) fun t => t.isPunct ";" = false :=
    hmid.lineFeed.imp fun t ht => ht.isPunct (by decide)
  have hend := (Parse.Reads.eatPunct_absent hsemicolon _ hnext).2
  have hlt := Parse.size_statementKind?_lt hkind hat
  have hstatement : Parse.statement? c = (kind c).andThen fun kind d _ =>
      ⟨some ⟨kind, (d.eatPunct ";").spanFrom c.here⟩, d.eatPunct ";", d.size_eatPunct_le ";"⟩ := by
    unfold Parse.statement?
    rw [hshows.lexeme, hshows.image]
    dsimp only
    rw [hkind]
  rw [hstatement]
  refine ⟨hshows.goesOn, Nat.lt_of_le_of_lt (size_eatPunct_le _ _) hlt,
    ⟨_, rfl, ?_⟩, hend.lineFeed⟩
  simp [Statement.withoutSpans, hvalue]

end Cursor

theorem Statement.reads {s : Statement} (h : s.kind.WellFormed) (hclear : s.isClear = true)
    (hmid : NextPart mid) :
    NextPart (s.print.toList ++ '\n' :: mid) ∧
      Cursor.ReadsItem Parse.statement? (s.print.toList ++ '\n' :: mid) mid
        fun t => t.withoutSpans = s.withoutSpans := by
  obtain ⟨kind, span⟩ := s
  have hcalm : Calm ('\n' :: mid) := hmid.endsExpr.calm
  have hsemicolon : Coming ('\n' :: mid) fun t => t.isPunct ";" = false :=
    hmid.lineFeed.imp fun t ht => ht.isPunct (by decide)
  cases kind with
  | focus f =>
    have htext : (print ⟨.focus f, span⟩).toList ++ '\n' :: mid = "focus".toList ++ ' ' ::
        (f.target.print.toList ++ ((printClause "pad" Expr.print f.pad).toList ++
          ((printClause "align" printName f.align).toList ++
            ((printClause "lock" Expr.print f.lock).toList ++ '\n' :: mid)))) := by
      simp [print]
    obtain ⟨hpad, hlock⟩ := Bool.and_eq_true_iff.1 hclear
    rw [htext]
    refine Cursor.readsItem_statement (by decide) rfl (by decide) rfl ?_ hmid
    refine .bind (.next fun c hc => hc.keyword (by decide) rfl (fenced_space _)) fun _ _ => .space ?_
    exact .bind (.focus h hpad hlock hmid) fun f' hf' => .pure hf'
  | call call =>
    have htext : (print ⟨.call call, span⟩).toList ++ '\n' :: mid =
        "do".toList ++ ' ' :: (call.print.toList ++ '\n' :: mid) := by simp [print]
    rw [htext]
    refine Cursor.readsItem_statement (by decide) rfl (by decide) rfl ?_ hmid
    refine .bind (.next fun c hc => hc.keyword (by decide) rfl (fenced_space _)) fun _ _ => .space ?_
    exact .bind (.call h hclear hcalm) fun call' hcall => .pure (congrArg StatementKind.call hcall)
  | define d =>
    have htext : (print ⟨.define d, span⟩).toList ++ '\n' :: mid =
        "let".toList ++ ' ' :: (((printName d.name) ++ " = " ++ d.value.print).toList ++
          '\n' :: mid) := by simp [print, Definition.print]
    have hread := Parse.Reads.definition h hclear hmid.endsExpr
    have hdef : d.print.toList ++ '\n' :: mid = (print ⟨.define d, span⟩).toList ++ '\n' :: mid := rfl
    rw [htext]
    rw [hdef, htext] at hread
    exact Cursor.readsItem_statement (by decide) rfl (by decide) rfl
      (.map (hread.imp fun d' hd' => congrArg StatementKind.define hd')) hmid
  | assert condition message =>
    have htext : (print ⟨.assert condition message, span⟩).toList ++ '\n' :: mid =
        "assert".toList ++ ' ' :: (condition.print.toList ++
          ((printClause "else" Expr.print message).toList ++ '\n' :: mid)) := by simp [print]
    obtain ⟨hcondition, hmessage⟩ := Bool.and_eq_true_iff.1 hclear
    rw [htext]
    refine Cursor.readsItem_statement (by decide) rfl (by decide) rfl ?_ hmid
    refine .bind (.next fun c hc => hc.keyword (by decide) rfl (fenced_space _)) fun _ _ => .space ?_
    exact .assertion h hcondition hmessage hmid
  | metadata m =>
    have htext : (print ⟨.metadata m, span⟩).toList ++ '\n' :: mid =
        "meta".toList ++ ' ' :: ((printEntries m.entries).toList ++ '\n' :: mid) := by
      simp [print, Metadata.print]
    have hread := Parse.Reads.metadata h hclear hsemicolon
    have hmeta : m.print.toList ++ '\n' :: mid = (print ⟨.metadata m, span⟩).toList ++ '\n' :: mid :=
      rfl
    rw [htext]
    rw [hmeta, htext] at hread
    exact Cursor.readsItem_statement (by decide) rfl (by decide) rfl
      (.map (hread.imp fun m' hm' => congrArg StatementKind.metadata hm')) hmid

end DiagramTour
