import DiagramTour.Program.Parse.Item
import DiagramTour.Proofs.Program.Quote
import DiagramTour.Proofs.Program.Standing

/-!
# Reading a text that is known

A cursor that stands before a known text reads known tokens.  `Parse.Reads` says of a reader that
from one text it comes to stand before another and brings a good value along, without reporting an
error.  The rules here take a text apart as the reader does: one token after another, one part
after another.
-/

namespace DiagramTour

variable {α β γ : Type} {c : Cursor} {rest mid im cs : List Char} {lexeme : Lexeme}

/-! ## What follows a token -/

theorem fenced_space (rest : List Char) : Fenced (' ' :: rest) :=
  IsFence.fenced (by decide) (by decide) rest

theorem fenced_lineFeed (rest : List Char) : Fenced ('\n' :: rest) :=
  IsFence.fenced (by decide) (by decide) rest

theorem fenced_comma (rest : List Char) : Fenced (',' :: rest) :=
  IsFence.fenced (by decide) (by decide) rest

theorem fenced_colon (rest : List Char) : Fenced (':' :: rest) :=
  IsFence.fenced (by decide) (by decide) rest

theorem fenced_paren (rest : List Char) : Fenced (')' :: rest) :=
  IsFence.fenced (by decide) (by decide) rest

theorem fenced_bracket (rest : List Char) : Fenced (']' :: rest) :=
  IsFence.fenced (by decide) (by decide) rest

/-- Where no sign comes first it does not matter whether one is allowed. -/
theorem munch?_unsigned {d : Char} (h1 : d ≠ '-') (h2 : d ≠ '+') (s : Bool) (cs : List Char) :
    munch? s (d :: cs) = munch? true (d :: cs) := by
  have hnumber (s : Bool) : number? s (d :: cs) = unsigned? false 0 (d :: cs) := by
    simp [number?, h1, h2]
  simp only [munch?, hnumber]

/-- No sign comes first. -/
theorem calm_of_munches (hm : Munches im rest lexeme)
    (hne : ∀ d ds, im = d :: ds → d ≠ '-' ∧ d ≠ '+') : Calm (im ++ rest) := by
  obtain ⟨⟨m, hmunch, hlen, -, -⟩, htrivia⟩ := hm
  cases im with
  | nil => exact absurd rfl (ne_nil_of_length_eq m hlen)
  | cons d ds =>
    obtain ⟨h1, h2⟩ := hne d ds rfl
    refine calm_of_munch? (m := m) htrivia hmunch ?_
    exact (munch?_unsigned h1 h2 false (ds ++ rest)).trans hmunch

theorem calm_punct {d : Char} (h : isPunctuation d = true) (rest : List Char) : Calm (d :: rest) := by
  refine calm_of_munches (munches_punct h rest) fun e es he => ?_
  cases he
  constructor <;> rintro rfl <;> revert h <;> decide

theorem Calm.space (h : Calm rest) : Calm (' ' :: rest) :=
  h.blank (by decide)

theorem Calm.lineFeed (h : Calm rest) : Calm ('\n' :: rest) :=
  h.blank (by decide)

theorem Calm.indent (h : Calm rest) (n : Nat) : Calm (List.replicate n ' ' ++ rest) := by
  induction n with
  | zero => exact h
  | succ n ih =>
    rw [List.replicate_succ]
    exact ih.space

/-! ## The token that comes next -/

/-- No sign is at stake, and what is known of the token that comes next. -/
structure Coming (rest : List Char) (Q : Token → Prop) : Prop where
  calm : Calm rest
  peek : ∀ c : Cursor, c.At rest → Q c.peek

namespace Coming

variable {Q R : Token → Prop}

theorem imp (h : Coming rest Q) (himp : ∀ t, Q t → R t) : Coming rest R :=
  ⟨h.calm, fun c hc => himp _ (h.peek c hc)⟩

theorem of_munches (hm : Munches im rest lexeme) (hne : ∀ d ds, im = d :: ds → d ≠ '-' ∧ d ≠ '+')
    (hQ : ∀ span, Q ⟨lexeme, String.ofList im, span⟩) : Coming (im ++ rest) Q := by
  refine ⟨calm_of_munches hm hne, fun c hc => ?_⟩
  obtain ⟨⟨pre, hbefore⟩, -⟩ := hc
  obtain ⟨⟨m, hmunch, hlen, hclosed, rfl⟩, htrivia⟩ := hm
  have hbefore : c.Before true pre ([] ++ (im ++ rest)) := hbefore
  obtain ⟨hpeek, -, -⟩ := hbefore.advance htrivia hmunch hlen hclosed
  rw [hpeek]
  exact hQ _

theorem blank {b : Char} (h : Coming rest Q) (hb : Text.isBlank b = true) : Coming (b :: rest) Q :=
  ⟨h.calm.blank hb, fun c hc => h.peek c (hc.blank hb)⟩

theorem space (h : Coming rest Q) : Coming (' ' :: rest) Q :=
  h.blank (by decide)

theorem lineFeed (h : Coming rest Q) : Coming ('\n' :: rest) Q :=
  h.blank (by decide)

theorem indent (h : Coming rest Q) (n : Nat) : Coming (List.replicate n ' ' ++ rest) Q :=
  ⟨h.calm.indent n, fun c hc => h.peek c hc.indent⟩

/-- A punctuation mark. -/
theorem punct {d : Char} (h : isPunctuation d = true)
    (hQ : ∀ span, Q ⟨.punct, String.ofList [d], span⟩) : Coming (d :: rest) Q := by
  refine of_munches (munches_punct h rest) (fun e es he => ?_) hQ
  cases he
  constructor <;> rintro rfl <;> revert h <;> decide

/-- A word. -/
theorem word {w : String} (hw : IsWord w.toList) (hrest : Fenced rest)
    (hQ : ∀ span, Q ⟨wordLexeme w, w, span⟩) : Coming (w.toList ++ rest) Q := by
  have hm := hw.munches_fenced hrest
  rw [String.ofList_toList] at hm
  refine of_munches hm (fun d ds hcs => ?_) fun span => ?_
  · rw [hcs] at hw
    have hd : Text.startsWord d = true := hw.1
    constructor <;> rintro rfl <;> revert hd <;> decide
  · rw [String.ofList_toList]
    exact hQ span

/-- A quote. -/
theorem quote {text : String} (hQ : ∀ span, Q ⟨.string text, DiagramTour.quote text, span⟩) :
    Coming ((DiagramTour.quote text).toList ++ rest) Q := by
  refine of_munches (munches_quote text rest) (fun d ds h => ?_) fun span => ?_
  · rw [toList_quote] at h
    cases h
    decide
  · rw [String.ofList_toList]
    exact hQ span

theorem atEnd (hQ : ∀ span, Q ⟨.eof, "", span⟩) : Coming [] Q := by
  refine ⟨calm_nil, fun c hc => ?_⟩
  have hend := hc.atEnd
  rw [Cursor.atEnd, List.isEmpty_iff] at hend
  simpa [Cursor.peek, hend, Token.endAt] using hQ _

end Coming

theorem calm_quote (text : String) (rest : List Char) : Calm ((quote text).toList ++ rest) :=
  (Coming.quote (Q := fun _ => True) fun _ => trivial).calm

/-! ## Reading -/

/-- A good value was read, and the cursor came to stand before `rest`. -/
def Parsed.Reads (r : Parsed c α) (rest : List Char) (good : α → Prop) : Prop :=
  good r.value ∧ r.next.At rest

/-- From `cs` the reader comes to `rest` with a good value. -/
def Parse.Reads (p : Parse α) (cs rest : List Char) (good : α → Prop) : Prop :=
  ∀ c : Cursor, c.At cs → (p c).Reads rest good

namespace Cursor

theorem Shows.atPunct {mark : String} (h : c.Shows .punct mark rest) (m : String) :
    c.atPunct m = (mark == m) := by
  simp [Cursor.atPunct, Token.isPunct, h.lexeme, h.image]

theorem Shows.atKeyword {word : String} (h : c.Shows .keyword word rest) (w : String) :
    c.atKeyword w = (word == w) := by
  simp [Cursor.atKeyword, Token.isKeyword, h.lexeme, h.image]

/-- A punctuation mark behind which a sign is allowed, or which a calm text follows. -/
theorem At.punct {d : Char} (h : c.At (d :: rest)) (hp : isPunctuation d = true)
    (hsign : signAfter .punct (String.ofList [d]) = true ∨ Calm rest) :
    c.Shows .punct (String.ofList [d]) rest := by
  have h : c.At ([d] ++ rest) := h
  exact h.shows (munches_punct hp rest) hsign

/-- A punctuation mark is seen before it is read. -/
theorem At.atPunct {d : Char} (h : c.At (d :: rest)) (hp : isPunctuation d = true) (mark : String) :
    c.atPunct mark = (String.ofList [d] == mark) := by
  have hcoming : Coming (d :: rest) fun t => t.isPunct mark = (String.ofList [d] == mark) :=
    .punct hp fun _ => rfl
  exact hcoming.peek c h

/-- A word. -/
theorem At.word {w : String} (h : c.At (w.toList ++ rest)) (hw : IsWord w.toList)
    (hrest : Fenced rest) (hsign : wordLexeme w = .keyword ∨ Calm rest) :
    c.Shows (wordLexeme w) w rest := by
  have hshows := At.shows h (hw.munches_fenced hrest)
  rw [String.ofList_toList] at hshows
  refine hshows (hsign.imp_left fun hlex => ?_)
  rw [hlex]
  rfl

/-- A reserved word. -/
theorem At.keyword {w : String} (h : c.At (w.toList ++ rest)) (hw : IsWord w.toList)
    (hlex : wordLexeme w = .keyword) (hrest : Fenced rest) : c.Shows .keyword w rest :=
  hlex ▸ h.word hw hrest (.inl hlex)

/-- A quote. -/
theorem At.quote {text : String} (h : c.At ((DiagramTour.quote text).toList ++ rest))
    (hcalm : Calm rest) : c.Shows (.string text) (DiagramTour.quote text) rest := by
  have hshows := h.shows (munches_quote text rest) (.inr hcalm)
  rwa [String.ofList_toList] at hshows

/-- A printed name is a word that is not reserved, or a quote. -/
theorem At.name {name : String} (h : c.At ((printName name).toList ++ rest)) (hrest : Fenced rest)
    (hcalm : Calm rest) : ∃ lexeme, c.Shows lexeme (printName name) rest ∧
      (lexeme = .identifier ∧ printName name = name ∨ lexeme = .string name) := by
  obtain ⟨lexeme, hm, hlex⟩ := munches_printName name hrest
  have hshows := h.shows hm (.inr hcalm)
  rw [String.ofList_toList] at hshows
  exact ⟨lexeme, hshows, hlex⟩

/-- A printed name is read as a name that says what was printed. -/
theorem At.isName {name : String} (h : c.At ((printName name).toList ++ rest)) (hrest : Fenced rest)
    (hcalm : Calm rest) : c.peek.isName = true ∧ c.peek.text = name ∧ c.advance.At rest := by
  obtain ⟨lexeme, hshows, ⟨rfl, heq⟩ | rfl⟩ := h.name hrest hcalm
  · exact ⟨by simp [Token.isName, Token.isWord, hshows.lexeme],
      by simp [Token.text, hshows.lexeme, hshows.image, heq], hshows.next⟩
  · exact ⟨by simp [Token.isName, Token.isString, hshows.lexeme],
      by simp [Token.text, hshows.lexeme], hshows.next⟩

end Cursor

namespace Parse.Reads

variable {p : Parse α} {f : α → Parse β} {good : α → Prop} {good' : β → Prop}

theorem imp {good' : α → Prop} (h : p.Reads cs rest good) (himp : ∀ a, good a → good' a) :
    p.Reads cs rest good' :=
  fun c hc => ⟨himp _ (h c hc).1, (h c hc).2⟩

theorem pure {a : α} (h : good a) : (Pure.pure a : Parse α).Reads rest rest good :=
  fun _ hc => ⟨h, hc⟩

/-- One part after the other. -/
theorem bind (hp : p.Reads cs mid good) (hf : ∀ a, good a → (f a).Reads mid rest good') :
    (p >>= f).Reads cs rest good' :=
  fun c hc => hf _ (hp c hc).1 _ (hp c hc).2

theorem map {g : α → β} (hp : p.Reads cs rest fun a => good' (g a)) :
    (g <$> p).Reads cs rest good' :=
  bind hp fun _ h => pure h

/-- What a cursor before the text shows decides how to go on. -/
theorem look {g : Cursor → γ} {f : γ → Parse β} (a : γ) (hg : ∀ c : Cursor, c.At cs → g c = a)
    (hf : (f a).Reads cs rest good') : (Parse.look g >>= f).Reads cs rest good' := by
  intro c hc
  have hread := hf c hc
  rw [← hg c hc] at hread
  exact hread

/-- What each cursor before the text shows decides how to go on from it. -/
theorem lookAt {g : Cursor → γ} {f : γ → Parse β}
    (hf : ∀ c : Cursor, c.At cs → (f (g c) c).Reads rest good') :
    (Parse.look g >>= f).Reads cs rest good' :=
  hf

/-- What a cursor shows does not matter. -/
theorem see {g : Cursor → γ} {f : γ → Parse β} (hf : ∀ a, (f a).Reads cs rest good') :
    (Parse.look g >>= f).Reads cs rest good' :=
  fun c hc => hf (g c) c hc

/-- The span of a node is of no account. -/
theorem spanned {start : Position} {f : Span → β} (h : ∀ span, good' (f span)) :
    (Parse.spanFrom start >>= fun span => Pure.pure (f span)).Reads rest rest good' :=
  see fun span => pure (h span)

/-- A blank before a part does not matter. -/
theorem space (h : p.Reads cs rest good) : p.Reads (' ' :: cs) rest good :=
  fun c hc => h c hc.space

theorem lineFeed (h : p.Reads cs rest good) : p.Reads ('\n' :: cs) rest good :=
  fun c hc => h c hc.lineFeed

theorem indent (h : p.Reads cs rest good) (n : Nat) :
    p.Reads (List.replicate n ' ' ++ cs) rest good :=
  fun c hc => h c hc.indent

/-! ### Single tokens -/

theorem expectPunct (d : Char) {mark : String} (hmark : String.ofList [d] = mark)
    (hp : isPunctuation d = true) (hsign : signAfter .punct (String.ofList [d]) = true ∨ Calm rest) :
    (Parse.expectPunct mark).Reads (d :: rest) rest fun _ => True := by
  intro c hc
  have hshows := hc.punct hp hsign
  have hat : c.atPunct mark = true := by simp [hshows.atPunct, hmark]
  refine ⟨trivial, ?_⟩
  show (c.expectPunct mark).At rest
  rw [Cursor.expectPunct, if_pos hat]
  exact hshows.next

/-- A mark that is there is read. -/
theorem eatPunct (d : Char) {mark : String} (hmark : String.ofList [d] = mark)
    (hp : isPunctuation d = true) (hsign : signAfter .punct (String.ofList [d]) = true ∨ Calm rest) :
    (Parse.eatPunct mark).Reads (d :: rest) rest fun _ => True := by
  intro c hc
  have hshows := hc.punct hp hsign
  have hat : c.atPunct mark = true := by simp [hshows.atPunct, hmark]
  refine ⟨trivial, ?_⟩
  show (c.eatPunct mark).At rest
  rw [Cursor.eatPunct, if_pos hat]
  exact hshows.next

/-- A mark that is not there is not read. -/
theorem eatPunct_absent {mark : String} (h : Coming rest fun t => t.isPunct mark = false) :
    (Parse.eatPunct mark).Reads rest rest fun _ => True := by
  intro c hc
  have hat : c.atPunct mark = false := h.peek c hc
  refine ⟨trivial, ?_⟩
  show (c.eatPunct mark).At rest
  rwa [Cursor.eatPunct, hat]

theorem expectKeyword {w : String} (hw : IsWord w.toList) (hlex : wordLexeme w = .keyword)
    (hrest : Fenced rest) :
    (Parse.expectKeyword w).Reads (w.toList ++ rest) rest fun _ => True := by
  intro c hc
  have hshows := hc.keyword hw hlex hrest
  refine ⟨trivial, ?_⟩
  show (c.expectKeyword w).At rest
  rw [Cursor.expectKeyword, hshows.atKeyword, beq_self_eq_true, if_pos rfl]
  exact hshows.next

theorem eatKeyword {w : String} (hw : IsWord w.toList) (hlex : wordLexeme w = .keyword)
    (hrest : Fenced rest) :
    (Parse.eatKeyword w).Reads (w.toList ++ rest) rest (· = true) := by
  intro c hc
  have hshows := hc.keyword hw hlex hrest
  have hat : c.atKeyword w = true := by simp [hshows.atKeyword]
  unfold Parse.eatKeyword
  rw [if_pos hat]
  exact ⟨rfl, hshows.next⟩

/-- A word that is not there is not read. -/
theorem eatKeyword_absent {w : String} (h : Coming rest fun t => t.isKeyword w = false) :
    (Parse.eatKeyword w).Reads rest rest (· = false) := by
  intro c hc
  have hat : c.atKeyword w = false := h.peek c hc
  unfold Parse.eatKeyword
  rw [hat]
  exact ⟨rfl, hc⟩

theorem name? (what name : String) (hrest : Fenced rest) (hcalm : Calm rest) :
    (Parse.name? what).Reads ((printName name).toList ++ rest) rest (· = some name) := by
  intro c hc
  obtain ⟨hname, htext, hnext⟩ := hc.isName hrest hcalm
  unfold Parse.name?
  rw [if_pos hname]
  exact ⟨by rw [htext], hnext⟩

theorem optionalName (name : String) (hrest : Fenced rest) (hcalm : Calm rest) :
    Parse.optionalName.Reads ((printName name).toList ++ rest) rest (· = some name) := by
  intro c hc
  obtain ⟨lexeme, hshows, hlex⟩ := hc.name hrest hcalm
  have htext : c.peek.text = name := (hc.isName hrest hcalm).2.1
  unfold Parse.optionalName
  rcases hlex with ⟨rfl, -⟩ | rfl
  · rw [hshows.lexeme]
    exact ⟨by rw [htext], hshows.next⟩
  · rw [hshows.lexeme]
    exact ⟨by rw [htext], hshows.next⟩

/-- Where a mark comes next there is no name. -/
theorem optionalName_absent (h : Coming rest fun t => t.lexeme = .punct) :
    Parse.optionalName.Reads rest rest (· = none) := by
  intro c hc
  unfold Parse.optionalName
  rw [h.peek c hc]
  exact ⟨rfl, hc⟩

theorem optionalString (text : String) (hcalm : Calm rest) :
    Parse.optionalString.Reads ((quote text).toList ++ rest) rest (· = some text) := by
  intro c hc
  have hshows := hc.quote hcalm
  have hstring : c.peek.isString = true := by simp [Token.isString, hshows.lexeme]
  unfold Parse.optionalString
  rw [if_pos hstring]
  exact ⟨by simp [Token.text, hshows.lexeme], hshows.next⟩

/-- Where no quoted text comes next there is none. -/
theorem optionalString_absent (h : Coming rest fun t => t.isString = false) :
    Parse.optionalString.Reads rest rest (· = none) := by
  intro c hc
  unfold Parse.optionalString
  rw [h.peek c hc]
  exact ⟨rfl, hc⟩

end Parse.Reads

/-! ## Blocks -/

namespace Cursor

/-- A name neither closes a block nor ends the text. -/
theorem goesOn_of_isName (h : c.peek.isName = true) :
    (c.atPunct closeBrace || c.atEnd) = false := by
  have hopen : c.atPunct closeBrace = false := by
    unfold atPunct Token.isPunct
    unfold Token.isName Token.isWord Token.isString at h
    split
    · rename_i hlex
      rw [hlex] at h
      cases h
    · rfl
  rw [hopen, atEnd_eq_false_of_isName h]
  rfl

theorem goesOn_of_isWord (h : c.peek.isWord = true) : (c.atPunct closeBrace || c.atEnd) = false :=
  goesOn_of_isName (by rw [Token.isName, h]; rfl)

theorem Shows.goesOn {word : String} (h : c.Shows .keyword word rest) :
    (c.atPunct closeBrace || c.atEnd) = false :=
  goesOn_of_isWord (by simp [Token.isWord, h.lexeme])

/-- Where tokens were read none is skipped. -/
theorem afterTurn_of_lt {d : Cursor} (h : d.size < c.size) (context : String) :
    c.afterTurn d context = d := by
  rw [afterTurn, if_neg (Nat.ne_of_lt h)]

/-- From `cs` the reader comes to `rest` with a good item, and has read some token. -/
def ReadsItem (item : Parse (Option α)) (cs rest : List Char) (good : α → Prop) : Prop :=
  ∀ c : Cursor, c.At cs → (c.atPunct closeBrace || c.atEnd) = false ∧
    (item c).next.size < c.size ∧ (item c).Reads rest fun o => ∃ a, o = some a ∧ good a

/-- From `cs` the items up to the closing brace before `rest` are read. -/
def ReadsItems (item : Parse (Option α)) (cs rest : List Char) (good : List α → Prop) : Prop :=
  ∀ (bound : Nat) (context : String) (c : Cursor) (hc : c.size < bound), c.At cs →
    (blockItems bound context (fun d _ => item d) c hc).Reads ('\x7d' :: rest) good

variable {item : Parse (Option α)} {good : α → Prop} {goods : List α → Prop}

theorem ReadsItem.imp {good' : α → Prop} (h : ReadsItem item cs rest good)
    (himp : ∀ a, good a → good' a) : ReadsItem item cs rest good' := by
  intro c hc
  obtain ⟨hopen, hlt, ⟨a, ha, hgood⟩, hnext⟩ := h c hc
  exact ⟨hopen, hlt, ⟨a, ha, himp a hgood⟩, hnext⟩

theorem ReadsItem.indent (h : ReadsItem item cs rest good) (n : Nat) :
    ReadsItem item (List.replicate n ' ' ++ cs) rest good :=
  fun c hc => h c hc.indent

namespace ReadsItems

theorem imp {goods' : List α → Prop} (h : ReadsItems item cs rest goods)
    (himp : ∀ as, goods as → goods' as) : ReadsItems item cs rest goods' :=
  fun bound context c hc hat => ⟨himp _ (h bound context c hc hat).1, (h bound context c hc hat).2⟩

theorem blank {b : Char} (h : ReadsItems item cs rest goods) (hb : Text.isBlank b = true) :
    ReadsItems item (b :: cs) rest goods :=
  fun bound context c hc hat => h bound context c hc (hat.blank hb)

theorem indent (h : ReadsItems item cs rest goods) (n : Nat) :
    ReadsItems item (List.replicate n ' ' ++ cs) rest goods :=
  fun bound context c hc hat => h bound context c hc hat.indent

/-- A closing brace ends the items. -/
theorem nil : ReadsItems item ('\x7d' :: rest) rest (· = []) := by
  intro bound context c hc hat
  have hclose : c.atPunct closeBrace = true := by simp [hat.atPunct (by decide), closeBrace]
  rw [blockItems, dif_pos (by simp [hclose])]
  exact ⟨rfl, hat⟩

/-- An item comes before the others. -/
theorem cons (h : ReadsItem item cs mid good) (htail : ReadsItems item mid rest goods) :
    ReadsItems item cs rest fun as => ∃ a as', as = a :: as' ∧ good a ∧ goods as' := by
  intro bound context c hc hat
  obtain ⟨hopen, hlt, ⟨a, ha, hgood⟩, hnext⟩ := h c hat
  have hturn := afterTurn_of_lt hlt context
  rw [blockItems, dif_neg (by simp [hopen])]
  obtain ⟨hvalues, hend⟩ := htail bound context (c.afterTurn (item c).next context)
    (by rw [hturn]; exact Nat.lt_trans hlt hc) (by rw [hturn]; exact hnext)
  exact ⟨⟨a, _, by simp [ha], hgood, hvalues⟩, hend⟩

/-- Items that are written one after the other.  `T` is what each of them needs to know of the
text behind it. -/
theorem all (rest : List Char) (xs : List α) {f : α → γ} {text : α → List Char}
    {T : List Char → Prop}
    (hitem : ∀ x ∈ xs, ∀ mid, T mid → ReadsItem item (text x ++ mid) mid fun a => f a = f x)
    (htail : ∀ x ∈ xs, ∀ mid, T mid → T (text x ++ mid)) {stop : List Char}
    (hstop : T stop) (hend : ReadsItems item stop rest (· = [])) :
    T (xs.flatMap text ++ stop) ∧
      ReadsItems item (xs.flatMap text ++ stop) rest fun as => as.map f = xs.map f := by
  induction xs with
  | nil => exact ⟨hstop, hend.imp fun as has => by rw [has]⟩
  | cons x xs ih =>
    obtain ⟨htails, hitems⟩ := ih (fun y hy => hitem y (List.mem_cons_of_mem _ hy))
      (fun y hy => htail y (List.mem_cons_of_mem _ hy))
    rw [List.flatMap_cons, List.append_assoc]
    refine ⟨htail x List.mem_cons_self _ htails, ?_⟩
    refine (cons (hitem x List.mem_cons_self _ htails) hitems).imp ?_
    rintro _ ⟨a, as, rfl, ha, has⟩
    rw [List.map_cons, List.map_cons, ha, has]

end ReadsItems

end Cursor

/-- Items between braces. -/
theorem Parse.Reads.block {item : Parse (Option α)} {context : String} {goods : List α → Prop}
    (hitems : Cursor.ReadsItems item cs rest goods) (hcalm : Calm rest) :
    (Parse.block context item).Reads ('\x7b' :: cs) rest goods := by
  intro c hc
  have hopen : c.atPunct Cursor.openBrace = true := by
    simp [hc.atPunct (by decide), Cursor.openBrace]
  have hshows := hc.punct (by decide) (.inl (by decide))
  obtain ⟨hvalues, hend⟩ := hitems c.size context c.advance
    (Cursor.size_advance_lt_of_atPunct hopen) hshows.next
  have hclose := (expectPunct '\x7d' rfl (by decide) (.inr hcalm) _ hend).2
  unfold Parse.block Cursor.block
  rw [dif_pos hopen]
  exact ⟨hvalues, hclose⟩

end DiagramTour
