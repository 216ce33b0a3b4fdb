import DiagramTour.Program.Parse.Item
import DiagramTour.Proofs.Program.Standing

/-!
# What reading yields

Reading only drops tokens and only adds reports.  `Yields` says besides what is known of a value
that was read from genuine tokens without any error so far: since no error is ever taken back, it
is known of every part of such a value as well.
-/

namespace DiagramTour

namespace Cursor

/-- From one cursor another was reached by reading on. -/
structure Onward (c d : Cursor) : Prop where
  source : d.source = c.source
  stop : d.stop = c.stop
  rest : ∃ n, d.rest = c.rest.drop n
  failed : c.Failed → d.Failed

variable {c d e : Cursor}

namespace Onward

theorem refl (c : Cursor) : Onward c c :=
  ⟨rfl, rfl, ⟨0, rfl⟩, id⟩

theorem trans (h : Onward c d) (h' : Onward d e) : Onward c e := by
  obtain ⟨n, hn⟩ := h.rest
  obtain ⟨k, hk⟩ := h'.rest
  exact ⟨h'.source.trans h.source, h'.stop.trans h.stop,
    ⟨n + k, by rw [hk, hn, List.drop_drop]⟩, h'.failed ∘ h.failed⟩

theorem advance (c : Cursor) : Onward c c.advance := by
  unfold Cursor.advance
  split
  · exact refl c
  · rename_i t ts h
    exact ⟨rfl, rfl, ⟨1, by simp [h]⟩, id⟩

theorem report (c : Cursor) (problem : Problem) (span : Span) :
    Onward c (c.report problem span) :=
  ⟨rfl, rfl, ⟨0, rfl⟩, fun h => failed_report.2 (.inl h)⟩

theorem unexpected (c : Cursor) (expected : String) : Onward c (c.unexpected expected) := by
  unfold Cursor.unexpected
  split
  · exact report c _ _
  · exact report c _ _

theorem eatPunct (c : Cursor) (mark : String) : Onward c (c.eatPunct mark) := by
  unfold Cursor.eatPunct
  split
  · exact advance c
  · exact refl c

theorem expectPunct (c : Cursor) (mark : String) : Onward c (c.expectPunct mark) := by
  unfold Cursor.expectPunct
  split
  · exact advance c
  · exact unexpected c _

theorem expectKeyword (c : Cursor) (word : String) : Onward c (c.expectKeyword word) := by
  unfold Cursor.expectKeyword
  split
  · exact advance c
  · exact unexpected c _

theorem recover (c : Cursor) (n : Nat) (context : String) : Onward c (c.recover n context) := by
  unfold Cursor.recover
  split
  · exact (unexpected c context).trans (advance _)
  · exact advance c

theorem afterTurn (h : Onward c d) (context : String) : Onward c (c.afterTurn d context) := by
  unfold Cursor.afterTurn
  split
  · exact h.trans (recover d _ _)
  · exact h

/-- Reading on keeps to the tokens of the same text. -/
theorem genuine (h : Onward c d) (hc : c.Genuine) : d.Genuine := by
  obtain ⟨hsource, hstop, ⟨n, hrest⟩, -⟩ := h
  -- As many single steps as tokens were dropped lead to the same tokens
  induction n generalizing c with
  | zero =>
    obtain ⟨⟨s, pre, cs, hbefore⟩, hclean⟩ := hc
    exact ⟨⟨s, pre, cs, hbefore.congr hsource hrest hstop⟩, by rw [hsource]; exact hclean⟩
  | succ n ih =>
    have hstep := advance c
    refine ih hc.advance (hsource.trans hstep.source.symm) (hstop.trans hstep.stop.symm) ?_
    rw [hrest]
    unfold Cursor.advance
    cases hr : c.rest <;> simp [hr]

end Onward

theorem Failed.afterTurn (h : d.Failed) (context : String) : (c.afterTurn d context).Failed := by
  unfold Cursor.afterTurn
  split
  · exact (Onward.recover _ _ _).failed h
  · exact h

end Cursor

open Cursor (Onward)

/-! ## Yielding -/

variable {α β : Type} {c : Cursor}

/-- Reading goes on, and without an error a value of this kind was read. -/
structure Parsed.Yields (r : Parsed c α) (Q : α → Prop) : Prop where
  onward : Onward c r.next
  value : c.Genuine → ¬r.next.Failed → Q r.value

/-- The same wherever reading begins. -/
def Parse.Yields (p : Parse α) (Q : α → Prop) : Prop :=
  ∀ c, (p c).Yields Q

namespace Parsed.Yields

variable {Q : α → Prop} {R : β → Prop}

theorem imp {Q' : α → Prop} {r : Parsed c α} (h : r.Yields Q) (himp : ∀ a, Q a → Q' a) :
    r.Yields Q' :=
  ⟨h.onward, fun hc hok => himp _ (h.value hc hok)⟩

theorem here {a : α} (h : Q a) : (Parsed.here c a).Yields Q :=
  ⟨.refl c, fun _ _ => h⟩

theorem andThen {r : Parsed c α} {f : (a : α) → (d : Cursor) → d.size ≤ c.size → Parsed d β}
    (hr : r.Yields Q) (hf : ∀ a d hd, (f a d hd).Yields fun b => Q a → R b) :
    (r.andThen f).Yields R := by
  have hnext := hf r.value r.next r.le
  refine ⟨hr.onward.trans hnext.onward, fun hc hok => ?_⟩
  -- What failed on the way would have failed in the end
  have hmid : ¬r.next.Failed := fun h => hok (hnext.onward.failed h)
  exact hnext.value (hr.onward.genuine hc) hok (hr.value hc hmid)

theorem map {r : Parsed c α} {f : α → β} (hr : r.Yields fun a => R (f a)) : (r.map f).Yields R :=
  ⟨hr.onward, hr.value⟩

/-- What the cursor shows decides how to go on. -/
theorem look {g : Cursor → α} {f : α → Parse β} (h : (f (g c) c).Yields R) :
    ((Parse.look g >>= f) c).Yields R :=
  ⟨h.onward, h.value⟩

/-- What is known of a genuine cursor is known behind its next token. -/
theorem next {f : Token → Parse β} {P : Prop} (hP : c.Genuine → P)
    (h : (f c.peek c.advance).Yields fun b => P → R b) : ((Parse.next >>= f) c).Yields R :=
  ⟨(Onward.advance c).trans h.onward, fun hgen hok => h.value hgen.advance hok (hP hgen)⟩

end Parsed.Yields

namespace Parse.Yields

variable {Q : α → Prop} {R : β → Prop} {p : Parse α}

theorem imp {Q' : α → Prop} (h : p.Yields Q) (himp : ∀ a, Q a → Q' a) : p.Yields Q' :=
  fun c => (h c).imp himp

theorem pure {a : α} (h : Q a) : (Pure.pure a : Parse α).Yields Q :=
  fun _ => .here h

theorem bind {f : α → Parse β} (hp : p.Yields Q) (hf : ∀ a, (f a).Yields fun b => Q a → R b) :
    (p >>= f).Yields R :=
  fun c => (hp c).andThen fun a d _ => hf a d

theorem map {f : α → β} (hp : p.Yields fun a => R (f a)) : (f <$> p).Yields R :=
  bind hp fun _ => pure id

theorem look {g : Cursor → α} {f : α → Parse β} (hf : ∀ a, (f a).Yields R) :
    (Parse.look g >>= f).Yields R :=
  fun c => .look (hf (g c) c)

theorem next : Parse.next.Yields fun _ => True :=
  fun c => ⟨.advance c, fun _ _ => trivial⟩

/-- What is missing is an error. -/
theorem unexpected (expected : String) : (Parse.unexpected expected).Yields fun _ => False :=
  fun c => ⟨.unexpected c expected, fun _ hok => hok (Cursor.failed_unexpected c expected)⟩

theorem report (problem : Problem) (span : Span) :
    (Parse.report problem span).Yields fun _ => problem.severity ≠ .error :=
  fun c => ⟨.report c problem span, fun _ hok h => hok (Cursor.failed_report.2 (.inr h))⟩

theorem eatKeyword (word : String) : (Parse.eatKeyword word).Yields fun _ => True := by
  intro c
  unfold Parse.eatKeyword
  split
  · exact ⟨.advance c, fun _ _ => trivial⟩
  · exact .here trivial

theorem eatPunct (mark : String) : (Parse.eatPunct mark).Yields fun _ => True :=
  fun c => ⟨.eatPunct c mark, fun _ _ => trivial⟩

theorem expectPunct (mark : String) : (Parse.expectPunct mark).Yields fun _ => True :=
  fun c => ⟨.expectPunct c mark, fun _ _ => trivial⟩

theorem expectKeyword (word : String) : (Parse.expectKeyword word).Yields fun _ => True :=
  fun c => ⟨.expectKeyword c word, fun _ _ => trivial⟩

theorem name? (what : String) : (Parse.name? what).Yields fun o => o.isSome := by
  intro c
  unfold Parse.name?
  split
  · exact ⟨.advance c, fun _ _ => rfl⟩
  · exact ⟨.unexpected c what, fun _ hok => absurd (Cursor.failed_unexpected c what) hok⟩

theorem optionalName : Parse.optionalName.Yields fun _ => True := by
  intro c
  unfold Parse.optionalName
  split
  · exact ⟨.advance c, fun _ _ => trivial⟩
  · exact ⟨.advance c, fun _ _ => trivial⟩
  · exact .here trivial

theorem optionalString : Parse.optionalString.Yields fun _ => True := by
  intro c
  unfold Parse.optionalString
  split
  · exact ⟨.advance c, fun _ _ => trivial⟩
  · exact .here trivial

end Parse.Yields

/-! ## Blocks -/

namespace Cursor

variable {Q : α → Prop}

/-- A turn of a loop over items gives an item and reads some token, or does neither. -/
def Turns (item : Parse (Option α)) : Prop :=
  ∀ c, ((item c).value = none ∧ (item c).next = c) ∨
    ((item c).value.isSome ∧ (item c).next.size < c.size)

theorem yields_blockItems {bound : Nat} (context : String)
    {item : (d : Cursor) → d.size < bound → Parsed d (Option α)}
    (hitem : ∀ d hd, (item d hd).Yields fun o => ∀ a, o = some a → Q a) {c : Cursor}
    (hc : c.size < bound) :
    (blockItems bound context item c hc).Yields fun as => ∀ a ∈ as, Q a := by
  induction hn : c.size using Nat.strongRecOn generalizing c with
  | _ n ih =>
    rw [blockItems]
    split
    · exact .here (by simp)
    · rename_i hstop
      have hturn := hitem c hc
      have hend := not_atEnd_of_not_stop hstop
      have hlt := size_afterTurn_lt hend (item c hc).le context
      have htail := ih _ (hn ▸ hlt) (Nat.lt_trans hlt hc) rfl
      have hafter := hturn.onward.afterTurn context
      refine ⟨hafter.trans htail.onward, fun hgen hok => ?_⟩
      have hmid : ¬(c.afterTurn (item c hc).next context).Failed :=
        fun h => hok (htail.onward.failed h)
      have hrest := htail.value (hafter.genuine hgen) hok
      have hfirst : ¬(item c hc).next.Failed := fun h => hmid (h.afterTurn context)
      have hvalue := hturn.value hgen hfirst
      simp only [Parsed.weaken_value, Parsed.map_value]
      cases hv : (item c hc).value with
      | none => simpa using hrest
      | some a =>
        intro b hb
        rcases List.mem_cons.1 hb with rfl | hb
        · exact hvalue _ hv
        · exact hrest b hb

theorem yields_block (context : String)
    {item : (d : Cursor) → d.size < c.size → Parsed d (Option α)}
    (hitem : ∀ d hd, (item d hd).Yields fun o => ∀ a, o = some a → Q a) :
    (c.block context item).Yields fun as => ∀ a ∈ as, Q a := by
  unfold block
  split
  · rename_i h
    have hbody := yields_blockItems context hitem (size_advance_lt_of_atPunct h)
    refine ⟨((Onward.advance c).trans hbody.onward).trans (.expectPunct _ _), fun hgen hok => ?_⟩
    exact hbody.value hgen.advance fun h => hok ((Onward.expectPunct _ _).failed h)
  · exact ⟨.unexpected c _, fun _ hok => absurd (failed_unexpected c _) hok⟩

end Cursor

theorem Parse.Yields.block {Q : α → Prop} {context : String} {item : Parse (Option α)}
    (hitem : item.Yields fun o => ∀ a, o = some a → Q a) :
    (Parse.block context item).Yields fun as => ∀ a ∈ as, Q a :=
  fun _ => Cursor.yields_block _ fun d _ => hitem d

end DiagramTour
