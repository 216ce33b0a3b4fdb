import DiagramTour.Proofs.Program.ReadsRule

/-!
# Reading printed declarations

Every declaration takes lines of its own.  It is read as the declaration if a word comes next, or
the end of the block or of the text, and no word that would go on with it.
-/

namespace DiagramTour

variable {α β : Type} {c : Cursor} {rest cs mid tail : List Char} {w : String}

/-! ## What follows a declaration -/

/-- The token is a word, closes a block or ends the text. -/
def Token.EndsItem (t : Token) : Prop :=
  t.isWord = true ∨ t.lexeme = .punct ∧ t.image = "\x7d" ∨ t.lexeme = .eof

/-- A declaration, the end of a block or the end of the text comes next. -/
def NextItem (mid : List Char) : Prop :=
  Coming mid Token.EndsItem

theorem Token.EndsItem.isPunct {t : Token} (h : t.EndsItem) {mark : String} (hmark : mark ≠ "\x7d") :
    t.isPunct mark = false := by
  unfold Token.isPunct
  rcases h with h | ⟨hlex, himage⟩ | hlex
  · unfold Token.isWord at h
    split at h
    · rename_i hlex
      rw [hlex]
    · rename_i hlex
      rw [hlex]
    · cases h
  · rw [hlex, himage]
    simpa using hmark.symm
  · rw [hlex]

theorem NextItem.absent (h : NextItem mid) {mark : String} (hmark : mark ≠ "\x7d") :
    Coming ('\n' :: mid) fun t => t.isPunct mark = false :=
  h.lineFeed.imp fun _ ht => ht.isPunct hmark

/-- Words that would go on with a declaration of this kind. -/
def Item.openWords : Item → List String
  | define _ => ["or", "and"]
  | plugin p => if p.localName.isNone && p.options.isNone then ["as"] else []
  | _ => []

/-- None of these words comes next. -/
def Spared (words : List String) (mid : List Char) : Prop :=
  Coming mid fun t => ∀ w ∈ words, t.isKeyword w = false

theorem NextItem.endsExpr (h : NextItem mid) (hspared : Spared ["or", "and"] mid) :
    EndsExpr ('\n' :: mid) := by
  refine ⟨fenced_lineFeed mid, Coming.lineFeed ⟨h.calm, fun c hc => ?_⟩⟩
  have hkey := hspared.peek c hc
  rcases h.peek c hc with hword | ⟨hlex, himage⟩ | hlex
  · unfold Token.isWord at hword
    split at hword
    · rename_i hlex
      refine Token.endsExpr_keyword hlex ?_ ?_ <;> intro himage
      · simpa [Token.isKeyword, hlex, himage] using hkey "or" (by simp)
      · simpa [Token.isKeyword, hlex, himage] using hkey "and" (by simp)
    · rename_i hlex
      exact ⟨⟨by simp [Token.isOperator, hlex], by simp [Token.isPunct, hlex]⟩,
        by simp [BinaryOp.ofToken?, hlex]⟩
    · cases hword
  · exact Token.endsExpr_punct hlex (by simp [himage])
  · exact ⟨⟨by simp [Token.isOperator, hlex], by simp [Token.isPunct, hlex]⟩,
      by simp [BinaryOp.ofToken?, hlex]⟩

/-! ## Settings of the player -/

theorem Expr.isBoolean_withoutSpans (e : Expr) :
    Parse.isBoolean e.withoutSpans = Parse.isBoolean e := by
  cases e with
  | literal l span =>
    obtain ⟨value, raw⟩ := l
    cases value <;> rfl
  | call call span => rfl
  | _ => rfl

/-- Bounds that are clear are a word out of the list, or begin with no name. -/
theorem Expr.WellFormed.isOneOf_or {e : Expr} (h : e.WellFormed) (hclear : e.isClearBounds = true) :
    e.IsOneOf Parse.cameraBounds ∨ e.beginsWithName = false := by
  unfold Expr.isClearBounds at hclear
  split at hclear
  · rename_i text raw span
    cases h with
    | literal hspelled =>
      obtain ⟨lexeme, himage, htoken⟩ := hspelled
      refine .inl ⟨text, raw, span, lexeme, rfl, by simpa using hclear, himage, ?_⟩
      obtain rfl : lexeme = .string text := by
        unfold Literal.ofToken? at htoken
        cases lexeme with
        | int => 
          dsimp only at htoken
          split at htoken <;> cases htoken
        | _ => cases htoken <;> rfl
      exact ⟨rfl, rfl⟩
  · exact .inr (by simpa using hclear)

namespace Parse.Reads

/-- A warning is no error. -/
theorem report {problem : Problem} {span : Span} (h : problem.severity ≠ .error) :
    (Parse.report problem span).Reads rest rest fun _ => True := by
  rintro c ⟨⟨pre, hbefore⟩, hok⟩
  exact ⟨trivial, ⟨pre, hbefore.congr rfl rfl rfl⟩, fun hfailed =>
    (Cursor.failed_report.1 hfailed).elim hok h⟩

/-- A value out of a list is read as it stands. -/
theorem allowedWord_isOneOf {key : String} {allowed : List String} {e : Expr}
    (h : e.IsOneOf allowed) (hrest : EndsExpr rest) :
    (Parse.allowedWord key allowed).Reads (e.print.toList ++ rest) rest
      fun e' => e'.withoutSpans = e.withoutSpans := by
  obtain ⟨text, raw, span, lexeme, rfl, hallowed, himage, hname, htext⟩ := h
  rw [Expr.print]
  have hshows (c : Cursor) (hc : c.At (raw.toList ++ rest)) : c.Shows lexeme raw rest := by
    have h := hc.shows (himage.munches hrest.fenced) (.inr hrest.calm)
    rwa [String.ofList_toList] at h
  refine look true (fun c hc => ?_) (bind (next hshows) ?_)
  · rw [← hname]
    unfold Token.isName Token.isWord Token.isString
    rw [(hshows c hc).lexeme]
  · rintro t ⟨hlex, himage⟩
    have htoken : t.text = text := by
      rw [← htext]
      unfold Token.text
      rw [hlex, himage]
    have hin : allowed.contains t.text = true := by simpa [htoken] using hallowed
    rw [if_pos hin]
    refine pure ?_
    rw [htoken, himage]
    rfl

/-- A value that begins with no name is read as an expression. -/
theorem allowedWord_expr {key : String} {allowed : List String} {e : Expr} (h : e.WellFormed)
    (hclear : e.isClear = true) (hname : e.beginsWithName = false) (hrest : EndsExpr rest) :
    (Parse.allowedWord key allowed).Reads (e.print.toList ++ rest) rest
      fun e' => e'.withoutSpans = e.withoutSpans := by
  refine look false (fun c hc => ?_) (expr h hclear hrest)
  rw [((h.isReread hclear).1 rest hrest c hc).1.name, hname]

theorem toggleValue {key : Token} {e : Expr} (h : e.WellFormed) (hclear : e.isClear = true)
    (hbool : Parse.isBoolean e = true) (hrest : EndsExpr rest) :
    (Parse.toggleValue key).Reads (e.print.toList ++ rest) rest
      fun e' => e'.withoutSpans = e.withoutSpans := by
  have hvalue : (do
      let value ← Parse.expr
      unless Parse.isBoolean value do
        Parse.report (.toggleNotBoolean key.text) value.span
      return value).Reads (e.print.toList ++ rest) rest fun e' => e'.withoutSpans = e.withoutSpans := by
    refine bind (expr h hclear hrest) fun e' he' => ?_
    rw [if_pos (by rw [← Expr.isBoolean_withoutSpans, he', Expr.isBoolean_withoutSpans, hbool])]
    exact pure he'
  unfold Parse.toggleValue
  split
  · exact hvalue
  · exact bind (report (by simp [Problem.severity])) fun _ _ => hvalue

/-- The settings of a part of the player. -/
theorem sectionEntries {s : RuntimeSection} (h : s.WellFormed) (hclear : s.isClear = true)
    (hcalm : Calm rest) : (Parse.entries s.kind.mode).Reads ((printEntries s.entries).toList ++ rest)
      rest fun es => Expr.entriesWithoutSpans es = Expr.entriesWithoutSpans s.entries := by
  obtain ⟨hvalues, hbounds⟩ := Bool.and_eq_true_iff.1 hclear
  have hentry (e : Entry Expr) (he : e ∈ s.entries) :
      Expr.IsEntry (Parse.entryValue s.kind.mode) e := by
    intro t ht mid hmid
    have hsuits := h e he
    have hplain := List.all_eq_true.1 hvalues e he
    cases hkind : s.kind with
    | overlay | performance =>
      rw [hkind] at hsuits
      exact expr hsuits hplain hmid
    | navigation =>
      rw [hkind] at hsuits
      exact toggleValue hsuits.1 hplain hsuits.2 hmid
    | camera =>
      rw [hkind] at hsuits hbounds
      show (if t.text = "bounds" then Parse.allowedWord t.text Parse.cameraBounds else Parse.expr).Reads
        _ _ _
      split
      · rename_i hkey
        have hclearBounds : e.value.isClearBounds = true := by
          simpa [← ht, hkey] using List.all_eq_true.1 hbounds e he
        rcases hsuits with hwell | ⟨-, hone⟩
        · rcases hwell.isOneOf_or hclearBounds with hone | hname
          · exact allowedWord_isOneOf hone hmid
          · exact allowedWord_expr hwell hplain hname hmid
        · exact allowedWord_isOneOf hone hmid
      · rename_i hkey
        rcases hsuits with hwell | ⟨hbad, -⟩
        · exact expr hwell hplain hmid
        · exact absurd (ht.trans hbad) hkey
  rw [printEntries, Expr.printEntries_eq]
  refine (settings hentry hcalm).imp fun es hes => ?_
  rwa [Expr.entriesWithoutSpans_eq, Expr.entriesWithoutSpans_eq]

end Parse.Reads

namespace Parse

theorem sectionKind?_of_atKeyword {kind : SectionKind}
    (h : ∀ w, c.atKeyword w = (kind.name == w)) :
    (sectionKind? c).value = some (kind, kind.mode) ∧ (sectionKind? c).next = c.advance := by
  cases kind <;> simp [sectionKind?, eatKeyword, h, SectionKind.name, SectionKind.mode]

/-- A part that begins at its first token. -/
theorem size_start_bind_lt {p : Parse α} {f : Position → α → Parse β}
    (h : (p c).next.size < c.size) : ((start >>= fun s => p >>= f s) c).next.size < c.size :=
  size_bind_lt (f := f c.here) h

end Parse

namespace SectionKind

theorem word (kind : SectionKind) : IsWord kind.name.toList ∧ wordLexeme kind.name = .keyword ∧
    kind.name ∈ partWords := by
  cases kind <;> exact ⟨by decide, rfl, by decide⟩

end SectionKind

/-- The settings with empty spans. -/
def RuntimeSection.bare (s : RuntimeSection) : RuntimeSection :=
  { s with entries := Expr.entriesWithoutSpans s.entries, span := default }

theorem Cursor.readsItem_section {s : RuntimeSection} (h : s.WellFormed) (hclear : s.isClear = true)
    (depth : Nat) (hmid : NextPart mid) :
    NextPart ((printLine depth (s.kind.name ++ " " ++ printEntries s.entries)).toList ++ mid) ∧
      ReadsItem Parse.runtimeSection?
        ((printLine depth (s.kind.name ++ " " ++ printEntries s.entries)).toList ++ mid) mid
        fun t => t.bare = s.bare := by
  obtain ⟨hword, hlex, hmem⟩ := s.kind.word
  have htext : (printLine depth (s.kind.name ++ " " ++ printEntries s.entries)).toList ++ mid =
      List.replicate (2 * depth) ' ' ++ (s.kind.name.toList ++ ' ' ::
        ((printEntries s.entries).toList ++ '\n' :: mid)) := by
    rw [toList_printLine]
    simp
  rw [htext]
  refine ⟨(nextPart_word hword hlex hmem (fenced_space _)).indent _, .indent (fun c hc => ?_) _⟩
  have hshows := hc.keyword hword hlex (fenced_space _)
  obtain ⟨hkind, hnext⟩ := Parse.sectionKind?_of_atKeyword hshows.atKeyword
  refine ⟨hshows.goesOn, Parse.size_start_bind_lt ?_, ?_⟩
  · rw [hnext]
    exact size_advance_lt hshows.going
  have hread : Parse.Reads Parse.sectionKind? (s.kind.name.toList ++ ' ' ::
      ((printEntries s.entries).toList ++ '\n' :: mid)) (' ' ::
        ((printEntries s.entries).toList ++ '\n' :: mid)) (· = some (s.kind, s.kind.mode)) := by
    intro d hd
    have hshows := hd.keyword hword hlex (fenced_space _)
    obtain ⟨hkind, hnext⟩ := Parse.sectionKind?_of_atKeyword hshows.atKeyword
    exact ⟨hkind, hnext ▸ hshows.next⟩
  refine Parse.Reads.throughLine (Parse.Reads.see fun start => .bind hread ?_) c hc
  rintro _ rfl
  refine .space (.bind (.sectionEntries h hclear hmid.endsExpr.calm) fun es hes =>
    .spanned fun span => ⟨_, rfl, ?_⟩)
  rw [RuntimeSection.bare, RuntimeSection.bare, hes]

namespace Parse.Reads

theorem runtime {r : Runtime} (h : ∀ s ∈ r.sections, s.WellFormed)
    (hclear : r.sections.all RuntimeSection.isClear = true) (depth : Nat) (hcalm : Calm mid) :
    Parse.runtime.Reads ((printBlock depth "runtime" (String.join (r.sections.map fun s =>
      printLine (depth + 1) (s.kind.name ++ " " ++ printEntries s.entries)))).toList ++ mid) mid
      fun r' => r'.withoutSpans = r.withoutSpans := by
  have hitems := Cursor.readsItems_lines ('\n' :: mid) (n := 2 * depth)
    (f := RuntimeSection.bare) fun s hs mid hmid =>
      Cursor.readsItem_section (h s hs) (List.all_eq_true.1 hclear s hs) (depth + 1) hmid
  rw [toList_printBlock, toList_join, List.flatMap_map]
  refine throughLine (indent (see fun start => ?_) _)
  refine bind (expectKeyword (by decide) rfl (fenced_space _)) fun _ _ => space ?_
  refine bind (block hitems hcalm.lineFeed) fun sections hsections => spanned fun span => ?_
  exact congrArg (Runtime.mk · default) hsections

/-! ## Selectors and styles -/

/-- A printed name is a token that says the name. -/
theorem nextName (name : String) (hrest : Fenced rest) (hcalm : Calm rest) :
    Parse.next.Reads ((printName name).toList ++ rest) rest fun t => t.text = name :=
  fun _ hc => ⟨(hc.isName hrest hcalm).2.1, (hc.isName hrest hcalm).2.2⟩

end Parse.Reads

/-- The named target with empty spans. -/
def Selector.bare (s : Selector) : Selector :=
  { s with target := s.target.withoutSpans, span := default }

theorem Cursor.readsItem_selector (s : Selector) (depth : Nat) (mid : List Char) :
    ReadsItem Parse.selector?
      ((printLine depth (printName s.name ++ ": " ++ s.target.print ++ ",")).toList ++ mid) mid
      fun t => t.bare = s.bare := by
  have htext : (printLine depth (printName s.name ++ ": " ++ s.target.print ++ ",")).toList ++ mid =
      List.replicate (2 * depth) ' ' ++ ((printName s.name).toList ++ ':' :: ' ' ::
        (s.target.print.toList ++ ',' :: '\n' :: mid)) := by
    rw [toList_printLine]
    simp
  rw [htext]
  refine .indent (fun c hc => ?_) _
  have hcalm (x : List Char) : Calm (':' :: x) := calm_punct (by decide) x
  have hname := (hc.isName (fenced_colon _) (hcalm _)).1
  refine ⟨goesOn_of_isName hname, ?_, ?_⟩
  · show ((if c.peek.isName then _ else _ : Parse (Option Selector)) c).next.size < c.size
    rw [if_pos hname]
    exact Parse.size_bind_lt (size_advance_lt (atEnd_eq_false_of_isName hname))
  · refine Parse.Reads.throughLine (Parse.Reads.see fun start => .look true
      (fun d hd => (hd.isName (fenced_colon _) (hcalm _)).1) ?_) c hc
    refine .bind (.nextName s.name (fenced_colon _) (hcalm _)) fun t ht => ?_
    refine .bind (.expectPunct ':' rfl (by decide) (.inl (by decide))) fun _ _ => .space ?_
    refine .bind (.target s.target (endsExpr_comma _).operand) fun target htarget => ?_
    refine .bind (.eatPunct ',' rfl (by decide) (.inl (by decide))) fun _ _ =>
      .spanned fun span => ⟨_, rfl, ?_⟩
    rw [Selector.bare, Selector.bare, htarget, ht]

namespace Parse.Reads

theorem selectors (s : Selectors) (depth : Nat) (hcalm : Calm mid) :
    Parse.selectors.Reads ((printBlock depth "selectors" (String.join (s.entries.map fun e =>
      printLine (depth + 1) (printName e.name ++ ": " ++ e.target.print ++ ",")))).toList ++ mid) mid
      fun s' => s'.withoutSpans = s.withoutSpans := by
  have hitems := (Cursor.ReadsItems.all ('\n' :: mid) s.entries
    (f := Selector.bare) (T := fun _ => True)
    (fun e _ mid _ => Cursor.readsItem_selector e (depth + 1) mid) (fun _ _ _ _ => trivial) trivial
    (Cursor.ReadsItems.nil.indent (2 * depth))).2.blank (b := '\n') (by decide)
  rw [toList_printBlock, toList_join, List.flatMap_map]
  refine throughLine (indent (see fun start => ?_) _)
  refine bind (expectKeyword (by decide) rfl (fenced_space _)) fun _ _ => space ?_
  refine bind (block hitems hcalm.lineFeed) fun entries hentries => spanned fun span => ?_
  exact congrArg (Selectors.mk · default) hentries

theorem styles {s : Styles} (h : ∀ e ∈ s.entries, e.value.WellFormed)
    (hclear : areClear s.entries = true) (depth : Nat) (hcalm : Calm mid) :
    Parse.styles.Reads ((printLine depth ("styles " ++ printEntries s.entries)).toList ++ mid) mid
      fun s' => s'.withoutSpans = s.withoutSpans := by
  have htext : (printLine depth ("styles " ++ printEntries s.entries)).toList ++ mid =
      List.replicate (2 * depth) ' ' ++ ("styles".toList ++ ' ' ::
        ((printEntries s.entries).toList ++ '\n' :: mid)) := by
    rw [toList_printLine]
    simp
  rw [htext]
  refine throughLine (indent (see fun start => ?_) _)
  refine bind (expectKeyword (by decide) rfl (fenced_space _)) fun _ _ => space ?_
  refine bind (entries h hclear hcalm.lineFeed) fun es hes => spanned fun span => ?_
  exact congrArg (Styles.mk · default) hes

/-! ## Plugins -/

/-- The options of a plugin, if there are some, and what is read behind them. -/
theorem pluginOptions {options : Option Expr} {f : Option Expr → Parse β} {good : β → Prop}
    (h : ∀ e, options = some e → e.IsObject) (hclear : options.all Expr.isClear = true)
    (hrest : Coming rest fun t => t.isPunct Cursor.openBrace = false)
    (hf : ∀ o, o.map Expr.withoutSpans = options.map Expr.withoutSpans →
      (f o).Reads rest mid good) :
    Parse.Reads (do
      if ← Parse.look (·.atPunct Cursor.openBrace) then
        let options ← some <$> Parse.object
        f options
      else
        let options ← Pure.pure none
        f options) ((printOptional Expr.print options).toList ++ rest) mid good := by
  cases options with
  | none =>
    rw [toList_printOptional_none]
    exact look false (fun c hc => hrest.peek c hc) (hf none rfl)
  | some e =>
    rw [toList_printOptional_some]
    refine space (look true (fun c hc => ?_) ?_)
    · obtain ⟨entries, span, rfl, -⟩ := h e rfl
      rw [Expr.print, Expr.printEntries_eq, toList_printSettings] at hc
      exact hc.atPunct (by decide) _
    · have hobject := object (h e rfl) (by simpa using hclear) hrest.calm
      exact bind (map (hobject.imp fun e' he' => by simp [he'])) hf

/-- The name of a plugin behind its word, if there is one, and what is read behind it. -/
theorem pluginName {localName : Option String} {f : Option String → Parse β} {good : β → Prop}
    (hfenced : Fenced rest)
    (hrest : Coming rest fun t => localName = none → t.isKeyword "as" = false)
    (hf : (f localName).Reads rest mid good) :
    Parse.Reads (do
      if ← Parse.eatKeyword "as" then
        let localName ← Parse.name? "a plugin alias"
        f localName
      else
        let localName ← Pure.pure none
        f localName) ((printClause "as" printName localName).toList ++ rest) mid good := by
  cases localName with
  | none =>
    rw [toList_printClause_none]
    refine bind (eatKeyword_absent (hrest.imp fun _ h => h rfl)) ?_
    rintro _ rfl
    exact hf
  | some name =>
    rw [toList_printClause_some]
    refine space (bind (eatKeyword (by decide) rfl (fenced_space _)) ?_)
    rintro _ rfl
    refine space (bind (name? _ name hfenced hrest.calm) ?_)
    rintro _ rfl
    exact hf

theorem plugin {p : Plugin} (h : p.WellFormed) (hclear : p.options.all Expr.isClear = true)
    (depth : Nat) (hmid : NextItem mid) (hspared : Spared (Item.plugin p).openWords mid) :
    Parse.plugin.Reads ((printLine depth ("use " ++ quote p.source ++
      printClause "as" printName p.localName ++ printOptional Expr.print p.options)).toList ++ mid)
      mid fun p' => p'.withoutSpans = p.withoutSpans := by
  obtain ⟨source, localName, options, span⟩ := p
  have htext : (printLine depth ("use " ++ quote source ++ printClause "as" printName localName ++
      printOptional Expr.print options)).toList ++ mid = List.replicate (2 * depth) ' ' ++
        ("use".toList ++ ' ' :: ((quote source).toList ++
          ((printClause "as" printName localName).toList ++
            ((printOptional Expr.print options).toList ++ '\n' :: mid)))) := by
    rw [toList_printLine]
    simp
  have hoptions : Fenced ((printOptional Expr.print options).toList ++ '\n' :: mid) ∧
      Coming ((printOptional Expr.print options).toList ++ '\n' :: mid)
        fun t => localName = none → t.isKeyword "as" = false := by
    cases options with
    | none =>
      refine ⟨fenced_lineFeed mid, Coming.lineFeed (hspared.imp fun t ht hname => ht "as" ?_)⟩
      simp [Item.openWords, hname]
    | some e =>
      obtain ⟨entries, espan, rfl, -⟩ := h e rfl
      have hobject : (printOptional Expr.print (some (.object entries espan))).toList ++ '\n' :: mid =
          ' ' :: '\x7b' :: (' ' :: (settingsBody entries ++ ['\x7d']) ++ '\n' :: mid) := by
        rw [printOptional, String.toList_append, Expr.print, Expr.printEntries_eq,
          toList_printSettings]
        simp
      rw [hobject]
      exact ⟨fenced_space _, .space (.punct (by decide) fun _ _ => rfl)⟩
  have hcalm : Calm ((printClause "as" printName localName).toList ++
      ((printOptional Expr.print options).toList ++ '\n' :: mid)) := by
    cases localName with
    | none =>
      rw [toList_printClause_none]
      exact hoptions.2.calm
    | some name =>
      rw [toList_printClause_some]
      exact (Coming.word (Q := fun _ => True) (by decide) (fenced_space _) fun _ => trivial).calm.space
  rw [htext]
  refine throughLine (indent (see fun start => ?_) _)
  refine bind (expectKeyword (by decide) rfl (fenced_space _)) fun _ _ => space ?_
  refine bind (optionalString source hcalm) ?_
  rintro _ rfl
  refine pluginName hoptions.1 hoptions.2 ?_
  refine pluginOptions h hclear (hmid.absent (by decide)) fun options' hoptions' => ?_
  refine bind (eatPunct_absent (hmid.absent (by decide))) fun _ _ => spanned fun span => ?_
  simp [Plugin.withoutSpans, hoptions']

end Parse.Reads

/-! ## Diagrams -/

namespace Parse

/-- The part with empty spans. -/
def DiagramPart.bare : DiagramPart → DiagramPart
  | config e => config e.withoutSpans
  | assets e => assets e.withoutSpans
  | part => part

/-- A part on lines of its own. -/
def DiagramPart.print (depth : Nat) : DiagramPart → String
  | source s => s.print depth
  | config e => printLine depth ("config " ++ e.print)
  | assets e => printLine depth ("assets " ++ e.print)
  | nothing => ""

/-- The parts of a diagram, in the order in which they are printed. -/
def partsOfDiagram (d : Diagram) : List DiagramPart :=
  (d.source.map .source).toList ++ (d.config.map .config).toList ++ (d.assets.map .assets).toList

theorem toList_print_diagram (depth : Nat) (d : Diagram) : (d.print depth).toList =
    (printBlock depth (printHeader "diagram" d.name)
      (String.join ((partsOfDiagram d).map (DiagramPart.print (depth + 1))))).toList := by
  obtain ⟨name, source, config, assets, span⟩ := d
  cases source <;> cases config <;> cases assets <;>
    simp [Diagram.print, partsOfDiagram, DiagramPart.print, String.append_assoc]

/-- Parts without spans make a diagram without spans. -/
theorem withoutSpans_foldl_addTo (parts : List DiagramPart) (d : Diagram) :
    (parts.foldl DiagramPart.addTo d).withoutSpans =
      (parts.map DiagramPart.bare).foldl DiagramPart.addTo d.withoutSpans := by
  induction parts generalizing d with
  | nil => rfl
  | cons part parts ih =>
    rw [List.foldl_cons, ih, List.map_cons, List.foldl_cons]
    congr 1
    cases part <;> rfl

theorem diagramPart?_of_config (h : c.atKeyword "config" = true) :
    (diagramPart? c).value = some (.config (object c.advance).value) ∧
      (diagramPart? c).next = (object c.advance).next := by
  have hmermaid := Cursor.atKeyword_of_ne (v := "mermaid") h (by decide)
  simp [diagramPart?, eatKeyword, hmermaid, h]

theorem diagramPart?_of_assets (h : c.atKeyword "assets" = true) :
    (diagramPart? c).value = some (.assets (object c.advance).value) ∧
      (diagramPart? c).next = (object c.advance).next := by
  have hmermaid := Cursor.atKeyword_of_ne (v := "mermaid") h (by decide)
  have hconfig := Cursor.atKeyword_of_ne (v := "config") h (by decide)
  simp [diagramPart?, eatKeyword, hmermaid, hconfig, h]

theorem foldl_partsOfDiagram (d : Diagram) (span : Span) :
    ((partsOfDiagram d).foldl DiagramPart.addTo ⟨d.name, none, none, none, span⟩).withoutSpans =
      d.withoutSpans := by
  obtain ⟨name, source, config, assets, span⟩ := d
  cases source <;> cases config <;> cases assets <;> rfl

end Parse

theorem munches_rawBlock {tag body : String} (h : (DiagramSource.heredoc tag body).WellFormed)
    {post : List Char} (hpost : EndsLine post) :
    Munches (rawImage tag.toList [] (body.toList ++ ['\n'])) post (.heredoc tag body) := by
  obtain ⟨hparts, hbody⟩ := h
  obtain ⟨m, hm, hlen, hclosed, hlex⟩ := heredoc?_rawImage hparts hpost
  rw [hbody, String.ofList_toList, String.ofList_toList] at hlex
  refine ⟨⟨m, by rw [munch?_eq, hm]; rfl, hlen, hclosed, hlex⟩, ?_⟩
  exact triviaLength_eq_zero (by decide) (opensComment_of_ne (by decide) (by decide))

/-- The text of a diagram is a token that says it, however it is quoted. -/
theorem DiagramSource.shows {s : DiagramSource} (h : s.WellFormed) (depth : Nat) (hmid : NextPart mid) :
    ∃ im, (s.print depth).toList ++ mid =
        List.replicate (2 * depth) ' ' ++ ("mermaid".toList ++ ' ' :: (im ++ '\n' :: mid)) ∧
      ∀ c : Cursor, c.At (im ++ '\n' :: mid) →
        Parse.sourceOf? c.peek = some s ∧ c.advance.At ('\n' :: mid) := by
  have hcalm : Calm ('\n' :: mid) := hmid.endsExpr.calm
  cases s with
  | heredoc tag body =>
    refine ⟨rawImage tag.toList [] (body.toList ++ ['\n']), ?_, fun c hc => ?_⟩
    · simp [print, printLine, rawImage, closingMark]
    · have hshows := hc.shows (munches_rawBlock h (by simp [EndsLine])) (.inr hcalm)
      exact ⟨by simp [Parse.sourceOf?, hshows.lexeme], hshows.next⟩
  | quoted text =>
    refine ⟨(quote text).toList, ?_, fun c hc => ?_⟩
    · simp [print, printLine]
    · have hshows := hc.quote hcalm
      exact ⟨by simp [Parse.sourceOf?, hshows.lexeme], hshows.next⟩

namespace Cursor

theorem readsItem_source {s : DiagramSource} (h : s.WellFormed) (depth : Nat) (hmid : NextPart mid) :
    NextPart ((s.print depth).toList ++ mid) ∧
      ReadsItem Parse.diagramPart? ((s.print depth).toList ++ mid) mid
        fun part => part.bare = .source s := by
  obtain ⟨im, htext, hsource⟩ := s.shows h depth hmid
  rw [htext]
  refine ⟨(nextPart_word (by decide) rfl (by decide) (fenced_space _)).indent _,
    .indent (fun c hc => ?_) _⟩
  have hshows := hc.keyword (by decide) rfl (fenced_space _)
  have hat : c.atKeyword "mermaid" = true := by simp [hshows.atKeyword]
  refine ⟨hshows.goesOn, Parse.size_bind_lt (Parse.size_eatKeyword_lt hat), ?_⟩
  refine Parse.Reads.throughLine (.bind (.eatKeyword (by decide) rfl (fenced_space _)) ?_) c hc
  rintro _ rfl
  refine .space (.lookAt fun d hd => ?_)
  obtain ⟨hsome, hnext⟩ := hsource d hd
  rw [hsome]
  exact ⟨⟨_, rfl, rfl⟩, hnext⟩

/-- A setting of a diagram behind its word. -/
theorem readsItem_setting {e : Expr} {part : Expr → Parse.DiagramPart} (h : e.IsObject)
    (hclear : e.isClear = true) (hw : IsWord w.toList) (hlex : wordLexeme w = .keyword)
    (hmem : w ∈ partWords) (hitem : ∀ c : Cursor, c.atKeyword w = true →
      (Parse.diagramPart? c).value = some (part (Parse.object c.advance).value) ∧
        (Parse.diagramPart? c).next = (Parse.object c.advance).next)
    (depth : Nat) (hmid : NextPart mid) :
    NextPart ((printLine depth (w ++ " " ++ e.print)).toList ++ mid) ∧
      ReadsItem Parse.diagramPart? ((printLine depth (w ++ " " ++ e.print)).toList ++ mid) mid
        fun p => ∃ e', p = part e' ∧ e'.withoutSpans = e.withoutSpans := by
  have htext : (printLine depth (w ++ " " ++ e.print)).toList ++ mid =
      List.replicate (2 * depth) ' ' ++ (w.toList ++ ' ' :: (e.print.toList ++ '\n' :: mid)) := by
    rw [toList_printLine]
    simp
  rw [htext]
  refine ⟨(nextPart_word hw hlex hmem (fenced_space _)).indent _, .indent (fun c hc => ?_) _⟩
  have hshows := hc.keyword hw hlex (fenced_space _)
  obtain ⟨hpart, hend⟩ := hitem c (by simp [hshows.atKeyword])
  obtain ⟨hvalue, hnext⟩ :=
    Parse.Reads.object h hclear hmid.endsExpr.calm c.advance hshows.next.space
  refine ⟨hshows.goesOn, ?_, ⟨_, hpart, _, rfl, hvalue⟩, hend ▸ hnext.lineFeed⟩
  rw [hend]
  exact Nat.lt_of_le_of_lt (Parse.object c.advance).le (size_advance_lt hshows.going)

theorem readsItem_diagramPart {d : Diagram} (h : d.WellFormed)
    (hconfig : d.config.all Expr.isClear = true) (hassets : d.assets.all Expr.isClear = true)
    {part : Parse.DiagramPart} (hpart : part ∈ Parse.partsOfDiagram d) (depth : Nat)
    (hmid : NextPart mid) : NextPart ((part.print depth).toList ++ mid) ∧
      ReadsItem Parse.diagramPart? ((part.print depth).toList ++ mid) mid
        fun part' => part'.bare = part.bare := by
  simp only [Parse.partsOfDiagram, List.mem_append, Option.mem_toList, Option.map_eq_some_iff] at hpart
  rcases hpart with (⟨s, hs, rfl⟩ | ⟨e, he, rfl⟩) | ⟨e, he, rfl⟩
  · exact readsItem_source (h.source s hs) depth hmid
  · obtain ⟨hnext, hitem⟩ := readsItem_setting (h.config e he) (by simpa [he] using hconfig)
      (by decide) rfl (by decide) (fun _ => Parse.diagramPart?_of_config) depth hmid
    refine ⟨hnext, hitem.imp ?_⟩
    rintro _ ⟨e', rfl, he'⟩
    exact congrArg Parse.DiagramPart.config he'
  · obtain ⟨hnext, hitem⟩ := readsItem_setting (h.assets e he) (by simpa [he] using hassets)
      (by decide) rfl (by decide) (fun _ => Parse.diagramPart?_of_assets) depth hmid
    refine ⟨hnext, hitem.imp ?_⟩
    rintro _ ⟨e', rfl, he'⟩
    exact congrArg Parse.DiagramPart.assets he'

end Cursor

theorem Parse.Reads.diagram {d : Diagram} (h : d.WellFormed)
    (hconfig : d.config.all Expr.isClear = true) (hassets : d.assets.all Expr.isClear = true)
    (depth : Nat) (hcalm : Calm mid) : Parse.diagram.Reads ((d.print depth).toList ++ mid) mid
      fun d' => d'.withoutSpans = d.withoutSpans := by
  have hitems := Cursor.readsItems_lines ('\n' :: mid) (n := 2 * depth)
    fun part hpart mid hmid =>
      Cursor.readsItem_diagramPart h hconfig hassets hpart (depth + 1) hmid
  rw [← List.flatMap_map, ← toList_join] at hitems
  rw [Parse.toList_print_diagram]
  refine headedBlock (by decide) rfl hitems hcalm fun start parts hparts => spanned fun span => ?_
  rw [Parse.withoutSpans_foldl_addTo, hparts, ← Parse.withoutSpans_foldl_addTo,
    Parse.foldl_partsOfDiagram]

end DiagramTour
