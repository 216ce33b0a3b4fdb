import DiagramTour.Proofs.Program.AbreastExpr

/-!
# Reading the same tokens in a longer text

A text may be the beginning of a longer one.  What is read of it there is what is read of it alone, as
long as reading meets no error: for whoever needs more tokens than the shorter text has fails at its end.
Only a reader that may go on at the end, as one of operators does, is asked to stop before it.

## Architecture

- A `Sequel` is what stands behind a text in a longer one, and `Cursor.longer` the same place in that.
- `Parsed.Stands` compares what two readers do there; it has a rule for each way to put readers together.
- The loops over lists are compared turn by turn.
-/

namespace DiagramTour

open Cursor (Onward)

/-- What makes a text longer: the tokens behind it, the whole text, and the place where that ends. -/
structure Sequel where
  source : List Char
  tokens : List Token
  stop : Position

namespace Sequel

variable {q : Sequel}

/-- The first token behind the text. -/
def first (q : Sequel) : Token :=
  q.tokens.head?.getD (.endAt q.stop)

/-- Nothing but an operator goes on behind the text: no mark, no word and no arrow. -/
structure Aside (q : Sequel) : Prop where
  mark : ∀ m, q.first.isPunct m = false
  word : q.first.isWord = false
  arrow : q.first.isOperator "->" = false

theorem Aside.of_operator (hlex : q.first.lexeme = .operator) (himage : q.first.image ≠ "->") :
    q.Aside := by
  refine ⟨fun m => ?_, ?_, ?_⟩
  · rw [Token.isPunct, hlex]
  · rw [Token.isWord, hlex]
  · rw [Token.isOperator, hlex]
    simpa using himage

theorem Aside.of_int {v : Float} (hlex : q.first.lexeme = .int v) : q.Aside := by
  refine ⟨fun m => ?_, ?_, ?_⟩
  · rw [Token.isPunct, hlex]
  · rw [Token.isWord, hlex]
  · rw [Token.isOperator, hlex]

end Sequel

namespace Cursor

/-- The same place in a longer text. -/
def longer (c : Cursor) (q : Sequel) : Cursor :=
  { c with source := q.source, rest := c.rest ++ q.tokens, stop := q.stop }

/-- What is left behind a cursor. -/
def sequel (c : Cursor) : Sequel :=
  ⟨c.source, c.rest, c.stop⟩

variable {q : Sequel} {c d n : Cursor}

theorem eq_longer (hsource : d.source = q.source) (hrest : d.rest = c.rest ++ q.tokens)
    (hstop : d.stop = q.stop) (hlast : d.lastStop = c.lastStop) (hreports : d.reports = c.reports) :
    d = c.longer q := by
  cases d
  simp_all [longer]

theorem size_longer (c : Cursor) (q : Sequel) : (c.longer q).size = c.size + q.tokens.length := by
  simp [size, longer]

theorem peek_longer (hend : c.atEnd = false) : (c.longer q).peek = c.peek := by
  unfold atEnd at hend
  unfold peek longer
  cases hr : c.rest with
  | nil => simp [hr] at hend
  | cons t ts => rfl

theorem peek_longer_of_atEnd (hend : c.atEnd = true) : (c.longer q).peek = q.first := by
  rw [atEnd, List.isEmpty_iff] at hend
  simp [peek, longer, hend, Sequel.first]

theorem atEnd_longer (hend : c.atEnd = false) : (c.longer q).atEnd = false := by
  unfold atEnd at hend ⊢
  unfold longer
  cases hr : c.rest with
  | nil => simp [hr] at hend
  | cons t ts => rfl

theorem advance_longer (hend : c.atEnd = false) : (c.longer q).advance = c.advance.longer q := by
  unfold atEnd at hend
  unfold advance longer
  cases hr : c.rest with
  | nil => simp [hr] at hend
  | cons t ts => rfl

theorem here_longer (hend : c.atEnd = false) : (c.longer q).here = c.here :=
  congrArg (·.span.start) (peek_longer hend)

theorem atOperator_longer (hend : c.atEnd = false) (op : String) :
    (c.longer q).atOperator op = c.atOperator op :=
  congrArg (·.isOperator op) (peek_longer hend)

theorem second_longer (hend : c.atEnd = false) (hend' : c.advance.atEnd = false) :
    (c.longer q).second = c.second := by
  rw [second_eq, second_eq, advance_longer hend, peek_longer hend']

theorem unexpected_longer (hend : c.atEnd = false) (expected : String) :
    (c.longer q).unexpected expected = (c.unexpected expected).longer q := by
  unfold unexpected
  rw [hend, atEnd_longer hend, peek_longer hend]
  rfl

/-- What is left later was left before. -/
theorem Onward.going (h : Onward c d) (hend : d.atEnd = false) : c.atEnd = false := by
  obtain ⟨k, hk⟩ := h.rest
  unfold atEnd at hend ⊢
  rw [hk] at hend
  cases hr : c.rest with
  | nil => simp [hr] at hend
  | cons t ts => rfl

theorem Onward.behindTurn (c n : Cursor) (context : String) : Onward n (c.afterTurn n context) := by
  unfold Cursor.afterTurn
  split
  · exact .recover _ _ _
  · exact .refl _

/-! ## Questions about the next token -/

/-- What is told neither of the end nor of what stands behind the text does not tell the longer text from
it. -/
theorem answer_longer {φ : Token → Bool} (hend : ∀ p, φ (.endAt p) = false) (hq : φ q.first = false) :
    φ (c.longer q).peek = φ c.peek := by
  cases hc : c.atEnd with
  | false => rw [peek_longer hc]
  | true =>
    rw [peek_longer_of_atEnd hc, hq]
    rw [atEnd, List.isEmpty_iff] at hc
    simp [peek, hc, hend]

theorem atPunct_longer (hq : q.Aside) (mark : String) : (c.longer q).atPunct mark = c.atPunct mark :=
  answer_longer (φ := (·.isPunct mark)) (fun _ => rfl) (hq.mark mark)

theorem isWord_longer (hq : q.Aside) : (c.longer q).peek.isWord = c.peek.isWord :=
  answer_longer (fun _ => rfl) hq.word

theorem second_isPunct_longer (hq : q.Aside) (hend : c.atEnd = false) (mark : String) :
    (c.longer q).second.isPunct mark = c.second.isPunct mark := by
  rw [second_eq, second_eq, advance_longer hend]
  exact atPunct_longer hq mark

theorem second_isWord_longer (hq : q.Aside) (hend : c.atEnd = false) :
    (c.longer q).second.isWord = c.second.isWord := by
  rw [second_eq, second_eq, advance_longer hend, isWord_longer hq]

theorem atArrow_longer (hq : q.Aside) : (c.longer q).atOperator "->" = c.atOperator "->" :=
  answer_longer (φ := (·.isOperator "->")) (fun _ => rfl) hq.arrow

/-- A mark that has to come next comes in the text itself. -/
theorem expectPunct_longer {mark : String} (hok : ¬(c.expectPunct mark).Failed) :
    c.atEnd = false ∧ (c.longer q).expectPunct mark = (c.expectPunct mark).longer q := by
  have hat := atPunct_of_expectPunct hok
  have hend := atEnd_eq_false_of_atPunct hat
  have hat' : (c.longer q).atPunct mark = true := by rwa [atPunct, peek_longer hend]
  refine ⟨hend, ?_⟩
  rw [expectPunct, if_pos hat', expectPunct, if_pos hat, advance_longer hend]

theorem eatPunct_longer (hq : q.Aside) (mark : String) :
    (c.longer q).eatPunct mark = (c.eatPunct mark).longer q := by
  unfold eatPunct
  rw [atPunct_longer hq]
  split
  · exact advance_longer (atEnd_eq_false_of_atPunct ‹_›)
  · rfl

/-- A turn of a loop comes to the same place, also if it read nothing. -/
theorem afterTurn_longer (hend : n.atEnd = false) (context : String) :
    (c.longer q).afterTurn (n.longer q) context = (c.afterTurn n context).longer q := by
  unfold afterTurn
  simp only [size_longer, Nat.add_right_cancel_iff]
  split
  · unfold recover
    have hreports : (n.longer q).reports.size = n.reports.size := rfl
    have hbefore : (c.longer q).reports.size = c.reports.size := rfl
    rw [hreports, hbefore]
    split
    · rw [unexpected_longer hend, advance_longer (by simpa using hend)]
    · exact advance_longer hend
  · rfl

end Cursor

/-! ## Readers that stand -/

variable {α β : Type} {q : Sequel} {P : Prop} {c d : Cursor}

/-- Reading goes on, and at the same place in the longer text the same is read, unless reading fails or
comes to the end of the text where `P` does not allow it. -/
structure Parsed.Stands (q : Sequel) (P : Prop) (r : Parsed c α) (r' : Parsed d α) : Prop where
  onward : Onward c r.next
  stand : d = c.longer q → ¬r.next.Failed → P ∨ r.next.atEnd = false →
    r'.value = r.value ∧ r'.next = r.next.longer q

/-- The same wherever reading begins. -/
def Parse.Stands (q : Sequel) (P : Prop) (p : Parse α) : Prop :=
  ∀ c d, (p c).Stands q P (p d)

namespace Parsed.Stands

theorem mono {P' : Prop} {r : Parsed c α} {r' : Parsed d α} (h : r.Stands q P' r') (himp : P → P') :
    r.Stands q P r' :=
  ⟨h.onward, fun hd hok hend => h.stand hd hok (hend.imp_left himp)⟩

/-- Of a reader that fails nothing is asked. -/
theorem failed {r : Parsed c α} {r' : Parsed d α} (h : Onward c r.next) (hr : r.next.Failed) :
    r.Stands q P r' :=
  ⟨h, fun _ hok => absurd hr hok⟩

theorem here {a b : α} (h : d = c.longer q → P ∨ c.atEnd = false → b = a) :
    (Parsed.here c a).Stands q P (Parsed.here d b) :=
  ⟨.refl c, fun hd _ hend => ⟨h hd hend, hd⟩⟩

theorem andThen {r : Parsed c α} {r' : Parsed d α}
    {k : (a : α) → (e : Cursor) → e.size ≤ c.size → Parsed e β}
    {l : (a : α) → (e : Cursor) → e.size ≤ d.size → Parsed e β} (hr : r.Stands q P r')
    (hk : ∀ a e e' he he', (k a e he).Stands q P (l a e' he')) :
    (r.andThen k).Stands q P (r'.andThen l) := by
  refine ⟨hr.onward.trans (hk _ _ r'.next _ r'.le).onward, fun hd hok hend => ?_⟩
  -- What failed or came to the end on the way would have done so in the end
  have honward := (hk r.value r.next r'.next r.le r'.le).onward
  obtain ⟨hvalue, hnext⟩ :=
    hr.stand hd (fun h => hok (honward.failed h)) (hend.imp_right honward.going)
  have hlast := (hk r.value r.next r'.next r.le r'.le).stand hnext hok hend
  simp only [Parsed.andThen_value, Parsed.andThen_next, hvalue]
  exact hlast

theorem map {r : Parsed c α} {r' : Parsed d α} (k : α → β) (hr : r.Stands q P r') :
    (r.map k).Stands q P (r'.map k) :=
  ⟨hr.onward, fun hd hok hend =>
    ⟨congrArg k (hr.stand hd hok hend).1, (hr.stand hd hok hend).2⟩⟩

/-- What is read behind the next token. -/
theorem behind {r : Parsed c.advance α} {r' : Parsed d.advance α} (hend : c.atEnd = false)
    (hr : r.Stands q P r') :
    (r.weaken c.size_advance_le).Stands q P (r'.weaken d.size_advance_le) :=
  ⟨(Onward.advance c).trans hr.onward, fun hd => hr.stand (by rw [hd, Cursor.advance_longer hend])⟩

end Parsed.Stands

namespace Parsed.Stands

/-- Both go the same way. -/
theorem ite {b b' : Prop} [Decidable b] [Decidable b'] {r u : Parsed c α} {r' u' : Parsed d α}
    (hiff : b' ↔ b) (hyes : b → r.Stands q P r') (hno : ¬b → u.Stands q P u') :
    (if b then r else u).Stands q P (if b' then r' else u') := by
  by_cases hb : b
  · rw [if_pos hb, if_pos (hiff.2 hb)]
    exact hyes hb
  · rw [if_neg hb, if_neg (mt hiff.1 hb)]
    exact hno hb

/-- Both go the same way, knowing which. -/
theorem dite {b b' : Prop} [Decidable b] [Decidable b'] {r : b → Parsed c α}
    {r' : b' → Parsed d α} {u : Parsed c α} {u' : Parsed d α} (hiff : b' ↔ b)
    (hyes : ∀ hb hb', (r hb).Stands q P (r' hb')) (hno : ¬b → u.Stands q P u') :
    (if h : b then r h else u).Stands q P (if h : b' then r' h else u') := by
  by_cases hb : b
  · rw [dif_pos hb, dif_pos (hiff.2 hb)]
    exact hyes hb _
  · rw [dif_neg hb, dif_neg (mt hiff.1 hb)]
    exact hno hb

end Parsed.Stands

namespace Parse.Stands

variable {p : Parse α} {k : α → Parse β}

theorem pure (a : α) : (Pure.pure a : Parse α).Stands q P :=
  fun _ _ => .here fun _ _ => rfl

theorem bind (hp : p.Stands q P) (hk : ∀ a, (k a).Stands q P) : (p >>= k).Stands q P :=
  fun c d => (hp c d).andThen fun a e e' _ _ => hk a e e'

/-- A question that does not tell the longer text from the shorter one. -/
theorem look {g : Cursor → β} (hg : ∀ c : Cursor, g (c.longer q) = g c) : (Parse.look g).Stands q P :=
  fun _ _ => .here fun hd _ => hd ▸ hg _

/-- A token is read if the answer about it is yes; the end of a text is none. -/
theorem readIf {φ : Cursor → Bool} (hφ : ∀ c : Cursor, φ (c.longer q) = φ c)
    (hend : ∀ c : Cursor, φ c = true → c.atEnd = false) {p p' : Parse β} (hyes : p.Stands q P)
    (hno : p'.Stands q P) :
    (Parse.look φ >>= fun b => if b = true then Parse.next >>= fun _ => p else p').Stands q P := by
  intro c d
  rw [look_bind, look_bind]
  by_cases hc : φ c = true
  · rw [if_pos hc]
    have hbehind := hyes c.advance d.advance
    refine ⟨(Onward.advance c).trans hbehind.onward, fun hd => ?_⟩
    subst hd
    rw [if_pos ((hφ c).trans hc)]
    exact hbehind.stand (Cursor.advance_longer (hend c hc))
  · rw [if_neg hc]
    refine ⟨(hno c d).onward, fun hd => ?_⟩
    subst hd
    rw [if_neg (by rwa [hφ])]
    exact (hno c (c.longer q)).stand rfl

/-- A mark that has to come next, at the end of the text as well. -/
theorem expectPunct (mark : String) : (Parse.expectPunct mark).Stands q P :=
  fun c _ => ⟨.expectPunct c mark, fun hd hok _ => ⟨rfl, hd ▸ (Cursor.expectPunct_longer hok).2⟩⟩

theorem eatPunct (hq : q.Aside) (mark : String) : (Parse.eatPunct mark).Stands q P :=
  fun c _ => ⟨.eatPunct c mark, fun hd _ _ => ⟨rfl, hd ▸ Cursor.eatPunct_longer hq mark⟩⟩

end Parse.Stands

/-! ## Lists -/

namespace Cursor

variable {b b' : Nat}

/-- Two readers of parts, each of which may be used as long as few enough tokens are left, stand wherever
they are used, unless they come to the end of the text. -/
structure PartsStand (q : Sequel) (item : (e : Cursor) → e.size < b → Parsed e α)
    (item' : (e : Cursor) → e.size < b' → Parsed e α) : Prop where
  onward : ∀ e he, Onward e (item e he).next
  stand : ∀ e e' he he', (item e he).Stands q False (item' e' he')

variable {item : (e : Cursor) → e.size < b → Parsed e α}
  {item' : (e : Cursor) → e.size < b' → Parsed e α}

/-- Where the one list goes on the other does. -/
theorem not_over_longer (hq : q.Aside) {mark : String} (hopen : ¬(c.atPunct mark || c.atEnd) = true) :
    ¬((c.longer q).atPunct mark || (c.longer q).atEnd) = true := by
  have hend := not_atEnd_of_not_stop hopen
  rw [atPunct_longer hq, atEnd_longer hend]
  rwa [hend] at hopen

/-- Where the one list is over before the end the other is. -/
theorem over_longer (hq : q.Aside) {mark : String} (hstop : (c.atPunct mark || c.atEnd) = true)
    (hend : c.atEnd = false) : ((c.longer q).atPunct mark || (c.longer q).atEnd) = true := by
  rw [atPunct_longer hq, atEnd_longer hend]
  rwa [hend] at hstop

/-- What is done with a list before its closing mark is done with it in the longer text. -/
theorem close_longer {r : Parsed c α} {r' : Parsed d α} (hr : r.Stands q False r') {mark : String}
    (hd : d = c.longer q) (hok : ¬(r.next.expectPunct mark).Failed) :
    r'.value = r.value ∧ r'.next.expectPunct mark = (r.next.expectPunct mark).longer q := by
  obtain ⟨hend, hexpect⟩ := expectPunct_longer (q := q) hok
  obtain ⟨hvalue, hnext⟩ :=
    hr.stand hd (fun h => hok ((Onward.expectPunct _ _).failed h)) (.inr hend)
  exact ⟨hvalue, by rw [hnext, hexpect]⟩

/-- What a part of a list comes to, if the list behind it neither fails nor comes to the end. -/
theorem PartsStand.part (hitem : PartsStand q item item') (hc : c.size < b) (hc' : (c.longer q).size < b')
    (honward : Onward (item c hc).next n) (hok : ¬n.Failed) (hend : n.atEnd = false) :
    (item' (c.longer q) hc').value = (item c hc).value ∧
      (item' (c.longer q) hc').next = (item c hc).next.longer q :=
  (hitem.stand c _ hc hc').stand rfl (fun h => hok (honward.failed h)) (.inr (honward.going hend))

/-- The turn that reads it comes to the same place. -/
theorem PartsStand.turn (hitem : PartsStand q item item') (hc : c.size < b) (hc' : (c.longer q).size < b')
    (context : String) (honward : Onward (c.afterTurn (item c hc).next context) n) (hok : ¬n.Failed)
    (hend : n.atEnd = false) :
    (item' (c.longer q) hc').value = (item c hc).value ∧
      (item' (c.longer q) hc').next = (item c hc).next.longer q ∧
      (c.longer q).afterTurn (item' (c.longer q) hc').next context =
        (c.afterTurn (item c hc).next context).longer q := by
  have hturn := (Onward.behindTurn c (item c hc).next context).trans honward
  obtain ⟨hfirst, hbehind⟩ := hitem.part hc hc' hturn hok hend
  exact ⟨hfirst, hbehind, by rw [hbehind, afterTurn_longer (hturn.going hend)]⟩

/-- A comma behind it is one in the longer text. -/
theorem PartsStand.comma (hq : q.Aside) (hitem : PartsStand q item item') (hc : c.size < b)
    (hc' : (c.longer q).size < b') (hsep : (item c hc).next.atPunct "," = true)
    (honward : Onward (item c hc).next.advance n) (hok : ¬n.Failed) (hend : n.atEnd = false) :
    (item' (c.longer q) hc').value = (item c hc).value ∧
      (item' (c.longer q) hc').next = (item c hc).next.longer q ∧
      (item' (c.longer q) hc').next.atPunct "," = true ∧
      (item' (c.longer q) hc').next.advance = (item c hc).next.advance.longer q := by
  obtain ⟨hfirst, hbehind⟩ := hitem.part hc hc' ((Onward.advance _).trans honward) hok hend
  refine ⟨hfirst, hbehind, ?_, ?_⟩
  · rwa [hbehind, atPunct_longer hq]
  · rw [hbehind, advance_longer (atEnd_eq_false_of_atPunct hsep)]

theorem stands_separated (hq : q.Aside) {close expected : String} (hitem : PartsStand q item item')
    (hc : c.size < b) (hd : d.size < b') : (separated b close expected item c hc).Stands q False
      (separated b' close expected item' d hd) := by
  refine ⟨onward_separated hitem.onward close expected hc, ?_⟩
  induction hn : c.size using Nat.strongRecOn generalizing c d with
  | _ n ih =>
    rintro rfl hok hend
    have hend := hend.resolve_left id
    have hgoing := (onward_separated hitem.onward close expected hc).going hend
    by_cases hstop : (c.atPunct close || c.atEnd) = true
    · rw [separated_of_stop item hstop, separated_of_stop item' (over_longer hq hstop hgoing)]
      exact ⟨rfl, rfl⟩
    have hstop' := not_over_longer hq hstop
    by_cases hsep : (item c hc).next.atPunct "," = true
    · obtain ⟨hlt, hvalue, hnext⟩ := separated_of_comma item hstop hc hsep
      rw [hnext] at hok hend
      have hrest := onward_separated hitem.onward close expected hlt
      obtain ⟨hfirst, -, hsep', hplace⟩ := hitem.comma hq hc hd hsep hrest hok hend
      obtain ⟨hlt', hvalue', hnext'⟩ := separated_of_comma item' hstop' hd hsep'
      obtain ⟨htail, hlast⟩ :=
        ih _ (hn ▸ Nat.lt_of_lt_of_le (size_advance_lt_of_atPunct hsep) (item c hc).le) hlt hlt' rfl
          hplace hok (.inr hend)
      rw [hvalue, hvalue', hnext, hnext', hfirst, htail, hlast]
      exact ⟨rfl, rfl⟩
    by_cases hclose : (item c hc).next.atPunct close = true
    · rw [separated_of_close item hstop hc hsep hclose] at hok hend ⊢
      obtain ⟨hfirst, hbehind⟩ := hitem.part hc hd (.refl _) hok hend
      rw [separated_of_close item' hstop' hd (by rwa [hbehind, atPunct_longer hq])
        (by rwa [hbehind, atPunct_longer hq])]
      exact ⟨congrArg (fun a => [a]) hfirst, hbehind⟩
    · exact absurd (failed_separated item hstop hc hsep hclose) hok

theorem stands_targetItems (hq : q.Aside) {item : (e : Cursor) → e.size < b → Parsed e Target}
    {item' : (e : Cursor) → e.size < b' → Parsed e Target} (hitem : PartsStand q item item')
    (hc : c.size < b) (hd : d.size < b') :
    (targetItems b item c hc).Stands q False (targetItems b' item' d hd) := by
  refine ⟨onward_targetItems hitem.onward hc, ?_⟩
  induction hn : c.size using Nat.strongRecOn generalizing c d with
  | _ n ih =>
    rintro rfl hok hend
    have hend := hend.resolve_left id
    have hgoing := (onward_targetItems hitem.onward hc).going hend
    by_cases hstop : (c.atPunct ")" || c.atEnd) = true
    · rw [targetItems_of_stop item hstop, targetItems_of_stop item' (over_longer hq hstop hgoing)]
      exact ⟨rfl, rfl⟩
    have hstop' := not_over_longer hq hstop
    -- Both texts have the same number of tokens before each of their places
    have hsizes (h : (item' (c.longer q) hd).next = (item c hc).next.longer q) :
        (item' (c.longer q) hd).next.size = (c.longer q).size ↔ (item c hc).next.size = c.size := by
      rw [h, size_longer, size_longer, Nat.add_right_cancel_iff]
    by_cases hsize : (item c hc).next.size = c.size
    · obtain ⟨hlt, hvalue, hnext⟩ := targetItems_of_still item hstop hc hsize
      rw [hnext] at hok hend
      have hrest := onward_targetItems hitem.onward hlt
      obtain ⟨hfirst, hbehind, hplace⟩ := hitem.turn hc hd "a target" hrest hok hend
      obtain ⟨hlt', hvalue', hnext'⟩ := targetItems_of_still item' hstop' hd ((hsizes hbehind).2 hsize)
      obtain ⟨htail, hlast⟩ := ih _ (hn ▸ size_afterTurn_lt hgoing (item c hc).le _) hlt hlt' rfl
        hplace hok (.inr hend)
      rw [hvalue, hvalue', hnext, hnext', hfirst, htail, hlast]
      exact ⟨rfl, rfl⟩
    by_cases hsep : (item c hc).next.atPunct "," = true
    · obtain ⟨hlt, hvalue, hnext⟩ := targetItems_of_comma item hstop hc hsize hsep
      rw [hnext] at hok hend
      have hrest := onward_targetItems hitem.onward hlt
      obtain ⟨hfirst, hbehind, hsep', hplace⟩ := hitem.comma hq hc hd hsep hrest hok hend
      obtain ⟨hlt', hvalue', hnext'⟩ :=
        targetItems_of_comma item' hstop' hd (hsize ∘ (hsizes hbehind).1) hsep'
      obtain ⟨htail, hlast⟩ :=
        ih _ (hn ▸ Nat.lt_of_lt_of_le (size_advance_lt_of_atPunct hsep) (item c hc).le) hlt hlt' rfl
          hplace hok (.inr hend)
      rw [hvalue, hvalue', hnext, hnext', hfirst, htail, hlast]
      exact ⟨rfl, rfl⟩
    by_cases hclose : (item c hc).next.atPunct ")" = true
    · rw [targetItems_of_close item hstop hc hsize hsep hclose] at hok hend ⊢
      obtain ⟨hfirst, hbehind⟩ := hitem.part hc hd (.refl _) hok hend
      rw [targetItems_of_close item' hstop' hd (hsize ∘ (hsizes hbehind).1)
        (by rwa [hbehind, atPunct_longer hq]) (by rwa [hbehind, atPunct_longer hq])]
      exact ⟨congrArg (fun t => [t]) hfirst, hbehind⟩
    · exact absurd (failed_targetItems item hstop hc hsize hsep hclose) hok

theorem stands_blockItems (hq : q.Aside) (context : String)
    {item : (e : Cursor) → e.size < b → Parsed e (Option α)}
    {item' : (e : Cursor) → e.size < b' → Parsed e (Option α)} (hitem : PartsStand q item item')
    (hc : c.size < b) (hd : d.size < b') :
    (blockItems b context item c hc).Stands q False (blockItems b' context item' d hd) := by
  refine ⟨onward_blockItems context hitem.onward hc, ?_⟩
  induction hn : c.size using Nat.strongRecOn generalizing c d with
  | _ n ih =>
    rintro rfl hok hend
    have hend := hend.resolve_left id
    have hgoing := (onward_blockItems context hitem.onward hc).going hend
    by_cases hstop : (c.atPunct closeBrace || c.atEnd) = true
    · rw [blockItems_of_stop context item hstop,
        blockItems_of_stop context item' (over_longer hq hstop hgoing)]
      exact ⟨rfl, rfl⟩
    have hstop' := not_over_longer hq hstop
    obtain ⟨hlt, hvalue, hnext⟩ := blockItems_of_turn context item hstop hc
    obtain ⟨hlt', hvalue', hnext'⟩ := blockItems_of_turn context item' hstop' hd
    rw [hnext] at hok hend
    have hrest := onward_blockItems context hitem.onward hlt
    obtain ⟨hfirst, -, hplace⟩ := hitem.turn hc hd context hrest hok hend
    obtain ⟨htail, hlast⟩ := ih _ (hn ▸ size_afterTurn_lt hgoing (item c hc).le _) hlt hlt' rfl
      hplace hok (.inr hend)
    rw [hvalue, hvalue', hnext, hnext', hfirst, htail, hlast]
    exact ⟨rfl, rfl⟩

/-- The items between two braces are closed in the text itself. -/
theorem stands_block (hq : q.Aside) (context : String)
    {item : (e : Cursor) → e.size < c.size → Parsed e (Option α)}
    {item' : (e : Cursor) → e.size < d.size → Parsed e (Option α)} (hitem : PartsStand q item item') :
    (c.block context item).Stands q P (d.block context item') := by
  by_cases hopen : c.atPunct openBrace = true
  · have hlt := size_advance_lt_of_atPunct hopen
    have hbody := onward_blockItems context hitem.onward hlt
    rw [block, dif_pos hopen]
    refine ⟨((Onward.advance c).trans hbody).trans (.expectPunct _ _), fun hd hok _ => ?_⟩
    have hopen' : d.atPunct openBrace = true := by rw [hd, atPunct_longer hq, hopen]
    rw [block, dif_pos hopen']
    refine close_longer (stands_blockItems hq context hitem hlt (size_advance_lt_of_atPunct hopen'))
      ?_ hok
    rw [hd, advance_longer (atEnd_eq_false_of_atPunct hopen)]
  · rw [block, dif_neg hopen]
    exact .failed (.unexpected c _) (failed_unexpected c _)

end Cursor

end DiagramTour
