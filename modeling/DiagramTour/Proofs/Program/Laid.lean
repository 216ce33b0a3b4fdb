import DiagramTour.Proofs.Program.Outset
import DiagramTour.Proofs.Program.Phrases
import DiagramTour.Proofs.Program.Yields

/-!
# Phrases between two cursors

What is read between two cursors lies between the places where they stand: the phrases that were read
lie there one behind the other, and each of them in order.  If nothing failed, they also end where the
last token that was read ends, so that the span of a phrase, which ends there as well, holds all that
was read for it.

## Architecture

- `Cursor.Stands` is kept by every step of reading; `Cursor.Ahead` says how two cursors stand to each
  other of which one was reached from the other one.
- `Cursor.Laid` is the invariant: the phrases that were read from one cursor up to another one, in
  order.  `Laid.node` makes one phrase of them, and no other lemma speaks of the span of a phrase.
- `Cursor.Reach` keeps of them what goes into values: lists of phrases in order.
- `Parse.Lays` says which lists of phrases a reader lays out.  `Parse.Fills` says the same of a reader
  inside a phrase, with what the phrase consists of so far; there is a rule for each way to go on.
-/

namespace DiagramTour

open Cursor (Onward)

variable {α β : Type} {source : List Char} {c d e o : Cursor} {ts us : List Phrase}
  {fs gs : List (List Phrase)} {begun : Prop} {w : String}

namespace Cursor

/-! ## Where a cursor stands -/

/-- What is left to read stands in order behind the end of what was read last, and all of it has its
place in the text. -/
structure Stands (source : List Char) (c : Cursor) : Prop where
  ordered : (c.rest ++ [Token.endAt c.stop]).Pairwise fun t u =>
    t.span.start.offset < t.span.stop.offset ∧ t.span.stop.offset ≤ u.span.start.offset
  places : ∀ t ∈ c.rest ++ [Token.endAt c.stop], t.span.start.IsIn source ∧ t.span.stop.IsIn source
  lastStop : c.lastStop.IsIn source
  behind : c.lastStop.offset ≤ c.here.offset

theorem peek_of_rest {t : Token} {ts : List Token} (h : c.rest = t :: ts) : c.peek = t := by
  simp [peek, h]

theorem advance_of_rest {t : Token} {ts : List Token} (h : c.rest = t :: ts) :
    c.advance = { c with rest := ts, lastStop := t.span.stop } := by
  unfold Cursor.advance
  rw [h]

/-- The next token, or the end, is among what is left. -/
theorem peek_mem (c : Cursor) : c.peek ∈ c.rest ++ [Token.endAt c.stop] := by
  unfold peek
  cases c.rest <;> simp

theorem stands_outset (source : String) : (outset source).Stands source.toList := by
  have hparts := lex_partitions source
  refine ⟨hparts.ordered, hparts.places.1, ⟨[], List.nil_prefix, rfl⟩, Nat.zero_le _⟩

namespace Stands

/-- The place where the next token starts is one of the text. -/
theorem here_isIn (h : c.Stands source) : c.here.IsIn source :=
  (h.places _ c.peek_mem).1

theorem report (h : c.Stands source) (problem : Problem) (span : Span) :
    (c.report problem span).Stands source :=
  ⟨h.ordered, h.places, h.lastStop, h.behind⟩

end Stands

/-! ## Reading on -/

/-- Reading has led from one cursor to the other. -/
structure Ahead (source : List Char) (c d : Cursor) : Prop where
  onward : Onward c d
  origin : c.Stands source
  stands : d.Stands source
  reports : c.reports.toList <+: d.reports.toList
  size : d.size ≤ c.size
  here : c.here.offset ≤ d.here.offset
  lastStop : c.lastStop.offset ≤ d.lastStop.offset
  /-- What was read last ends behind the place where reading began, if anything was read. -/
  moved : d.size < c.size → c.here.offset ≤ d.lastStop.offset

namespace Ahead

theorem refl (h : c.Stands source) : c.Ahead source c :=
  ⟨.refl c, h, h, List.prefix_rfl, Nat.le_refl _, Nat.le_refl _, Nat.le_refl _,
    fun hlt => absurd hlt (Nat.lt_irrefl _)⟩

theorem trans (h : c.Ahead source d) (h' : d.Ahead source e) : c.Ahead source e where
  onward := h.onward.trans h'.onward
  origin := h.origin
  stands := h'.stands
  reports := h.reports.trans h'.reports
  size := Nat.le_trans h'.size h.size
  here := Nat.le_trans h.here h'.here
  lastStop := Nat.le_trans h.lastStop h'.lastStop
  moved := fun hlt => by
    rcases Nat.lt_or_ge d.size c.size with hfirst | hfirst
    · exact Nat.le_trans (h.moved hfirst) h'.lastStop
    · exact Nat.le_trans h.here (h'.moved (Nat.lt_of_lt_of_le hlt hfirst))

theorem failed (h : c.Ahead source d) (hc : c.Failed) : d.Failed :=
  h.onward.failed hc

theorem report (h : c.Stands source) (problem : Problem) (span : Span) :
    c.Ahead source (c.report problem span) where
  onward := .report c problem span
  origin := h
  stands := h.report problem span
  reports := by simp [Cursor.report]
  size := Nat.le_refl _
  here := Nat.le_refl _
  lastStop := Nat.le_refl _
  moved := fun hlt => absurd hlt (Nat.lt_irrefl _)

theorem unexpected (h : c.Stands source) (expected : String) :
    c.Ahead source (c.unexpected expected) := by
  unfold Cursor.unexpected
  split
  · exact report h _ _
  · exact report h _ _

theorem advance (h : c.Stands source) : c.Ahead source c.advance := by
  cases hrest : c.rest with
  | nil =>
    have hsame : c.advance = c := by simp [Cursor.advance, hrest]
    rw [hsame]
    exact .refl h
  | cons t rest =>
    obtain ⟨hordered, hplaces, hlast, hbehind⟩ := h
    have honward := Onward.advance c
    have hsize := c.size_advance_le
    have hpeek := peek_of_rest hrest
    rw [advance_of_rest hrest] at honward hsize ⊢
    have hmem : (Cursor.mk c.source rest c.stop t.span.stop c.reports).peek ∈
        rest ++ [Token.endAt c.stop] := peek_mem _
    rw [hrest, List.cons_append, List.pairwise_cons] at hordered
    rw [hrest, List.cons_append, List.forall_mem_cons] at hplaces
    obtain ⟨hpos, hnext⟩ := hordered.1 _ hmem
    have hhere : c.here.offset < t.span.stop.offset := by
      unfold Cursor.here
      rwa [hpeek]
    exact {
      onward := honward
      origin := ⟨by rw [hrest]; exact List.pairwise_cons.2 hordered,
        by rw [hrest]; exact List.forall_mem_cons.2 hplaces, hlast, hbehind⟩
      stands := ⟨hordered.2, hplaces.2, hplaces.1.2, hnext⟩
      reports := List.prefix_rfl
      size := hsize
      here := Nat.le_trans (Nat.le_of_lt hhere) hnext
      lastStop := Nat.le_trans hbehind (Nat.le_of_lt hhere)
      moved := fun _ => Nat.le_of_lt hhere }

theorem eatPunct (h : c.Stands source) (mark : String) : c.Ahead source (c.eatPunct mark) := by
  unfold Cursor.eatPunct
  split
  · exact advance h
  · exact refl h

theorem expectPunct (h : c.Stands source) (mark : String) :
    c.Ahead source (c.expectPunct mark) := by
  unfold Cursor.expectPunct
  split
  · exact advance h
  · exact unexpected h _

theorem expectKeyword (h : c.Stands source) (word : String) :
    c.Ahead source (c.expectKeyword word) := by
  unfold Cursor.expectKeyword
  split
  · exact advance h
  · exact unexpected h _

theorem recover (h : c.Stands source) (n : Nat) (context : String) :
    c.Ahead source (c.recover n context) := by
  unfold Cursor.recover
  split
  · exact (unexpected h context).trans (advance (unexpected h context).stands)
  · exact advance h

theorem afterTurn (h : c.Ahead source d) (context : String) :
    d.Ahead source (c.afterTurn d context) := by
  unfold Cursor.afterTurn
  split
  · exact recover h.stands _ _
  · exact refl h.stands

end Ahead

/-! ## Phrases in order -/

/-- These phrases were read from the first cursor up to the second one. -/
structure Laid (source : List Char) (c : Cursor) (ts : List Phrase) (d : Cursor) : Prop where
  ahead : c.Ahead source d
  placed : ∀ t ∈ ts, t.Throughout fun u => u.span.IsPlaced source
  between : ∀ t ∈ ts,
    c.here.offset ≤ t.span.start.offset ∧ t.span.stop.offset ≤ d.here.offset
  ordered : ts.Pairwise fun t u => t.span.Precedes u.span
  tidy : ¬d.Failed → ∀ t ∈ ts, t.Throughout Phrase.Tidy ∧ t.span.stop.offset ≤ d.lastStop.offset

namespace Laid

theorem nil (h : c.Ahead source d) : c.Laid source [] d :=
  ⟨h, by simp, by simp, .nil, by simp⟩

/-- Some of the phrases, in order. -/
theorem sublist (h : c.Laid source ts d) (hsub : us.Sublist ts) : c.Laid source us d where
  ahead := h.ahead
  placed := fun t ht => h.placed t (hsub.subset ht)
  between := fun t ht => h.between t (hsub.subset ht)
  ordered := h.ordered.sublist hsub
  tidy := fun hok t ht => h.tidy hok t (hsub.subset ht)

theorem append (h : c.Laid source ts d) (h' : d.Laid source us e) :
    c.Laid source (ts ++ us) e where
  ahead := h.ahead.trans h'.ahead
  placed := List.forall_mem_append.2 ⟨h.placed, h'.placed⟩
  between := by
    refine List.forall_mem_append.2 ⟨fun t ht => ?_, fun u hu => ?_⟩
    · exact ⟨(h.between t ht).1, Nat.le_trans (h.between t ht).2 h'.ahead.here⟩
    · exact ⟨Nat.le_trans h.ahead.here (h'.between u hu).1, (h'.between u hu).2⟩
  ordered := by
    refine List.pairwise_append.2 ⟨h.ordered, h'.ordered, fun t ht u hu => ?_⟩
    exact Nat.le_trans (h.between t ht).2 (h'.between u hu).1
  tidy := fun hok => by
    refine List.forall_mem_append.2 ⟨fun t ht => ?_, h'.tidy hok⟩
    obtain ⟨htidy, hstop⟩ := h.tidy (fun h => hok (h'.ahead.failed h)) t ht
    exact ⟨htidy, Nat.le_trans hstop h'.ahead.lastStop⟩

/-- The span from one place where a cursor stood to where reading has come. -/
theorem spanFrom_isPlaced (h : c.Ahead source d) : (d.spanFrom c.here).IsPlaced source ∧
    (d.spanFrom c.here).stop.offset ≤ d.here.offset := by
  unfold spanFrom
  split
  · exact ⟨.point h.origin.here_isIn, h.here⟩
  · rename_i hlt
    exact ⟨⟨Nat.not_lt.1 hlt, h.origin.here_isIn, h.stands.lastStop⟩, h.stands.behind⟩

/-- All that was read makes up one phrase, whose span goes from where reading began to where it
ended. -/
theorem node {t : Phrase} (h : c.Laid source ts d) (hspan : t.span = d.spanFrom c.here)
    (hlists : ∀ us ∈ t.lists, us.Sublist ts) (hmoved : ¬d.Failed → d.size < c.size) :
    c.Laid source [t] d := by
  obtain ⟨hplaced, hle⟩ := spanFrom_isPlaced h.ahead
  rw [← hspan] at hplaced hle
  have hstart : t.span.start = c.here := by rw [hspan]; rfl
  refine ⟨h.ahead, ?_, ?_, List.pairwise_singleton .., fun hok => ?_⟩
  · rw [List.forall_mem_singleton, Phrase.throughout_iff]
    exact ⟨hplaced, fun us hus u hu => h.placed u ((hlists us hus).subset hu)⟩
  · rw [List.forall_mem_singleton, hstart]
    exact ⟨Nat.le_refl _, hle⟩
  · -- Without an error some token was read, and the last one ends the span
    have hlast : c.here.offset ≤ d.lastStop.offset := h.ahead.moved (hmoved hok)
    have hstop : t.span.stop = d.lastStop := by
      rw [hspan, spanFrom, if_neg (Nat.not_lt.2 hlast)]
    rw [List.forall_mem_singleton, Phrase.throughout_iff, hstop]
    refine ⟨⟨⟨fun us hus u hu => ?_, fun us hus => ?_⟩, fun us hus u hu => ?_⟩, Nat.le_refl _⟩
    · have hmem := (hlists us hus).subset hu
      exact ⟨by rw [hstart]; exact (h.between u hmem).1, by rw [hstop]; exact (h.tidy hok u hmem).2⟩
    · exact h.ordered.sublist (hlists us hus)
    · exact (h.tidy hok u ((hlists us hus).subset hu)).1

/-- Behind an error it does not matter where the phrases in a phrase stand. -/
theorem broken {t : Phrase} (h : c.Ahead source d) (hfailed : d.Failed)
    (hspan : t.span = d.spanFrom c.here)
    (hbelow : ∀ us ∈ t.lists, ∀ u ∈ us, u.Throughout fun v => v.span.IsPlaced source) :
    c.Laid source [t] d := by
  obtain ⟨hplaced, hle⟩ := spanFrom_isPlaced h
  rw [← hspan] at hplaced hle
  refine ⟨h, ?_, ?_, List.pairwise_singleton .., fun hok => absurd hfailed hok⟩
  · rw [List.forall_mem_singleton, Phrase.throughout_iff]
    exact ⟨hplaced, hbelow⟩
  · rw [List.forall_mem_singleton]
    exact ⟨by rw [hspan]; exact Nat.le_refl _, hle⟩

/-- Two phrases are joined to one that goes from the start of the first one to the end of the second
one. -/
theorem join {t a b : Phrase} (h : c.Laid source [a, b] d)
    (hspan : t.span = a.span.through b.span) (hlists : t.lists = [[a, b]]) :
    c.Laid source [t] d := by
  obtain ⟨hahead, hplaced, hbetween, hordered, htidy⟩ := h
  simp only [List.forall_mem_cons, List.not_mem_nil] at hplaced hbetween htidy
  have haplaced := (Phrase.throughout_iff.1 hplaced.1).1
  have hbplaced := (Phrase.throughout_iff.1 hplaced.2.1).1
  have hab : a.span.stop.offset ≤ b.span.start.offset := by
    simpa [Span.Precedes] using hordered
  have hstart : t.span.start = a.span.start := by rw [hspan]; rfl
  have hstop : t.span.stop = b.span.stop := by rw [hspan]; rfl
  have hale := haplaced.ordered
  have hble := hbplaced.ordered
  refine ⟨hahead, ?_, ?_, List.pairwise_singleton .., fun hok => ?_⟩
  · rw [List.forall_mem_singleton, Phrase.throughout_iff, hlists]
    refine ⟨⟨?_, hstart ▸ haplaced.start, hstop ▸ hbplaced.stop⟩, ?_⟩
    · rw [hstart, hstop]
      omega
    · simpa using ⟨hplaced.1, hplaced.2.1⟩
  · rw [List.forall_mem_singleton, hstart, hstop]
    exact ⟨hbetween.1.1, hbetween.2.1.2⟩
  · obtain ⟨⟨hatidy, -⟩, ⟨hbtidy, hlast⟩, -⟩ := htidy hok
    rw [List.forall_mem_singleton, Phrase.throughout_iff, hlists, hstop]
    refine ⟨⟨⟨?_, ?_⟩, by simpa using ⟨hatidy, hbtidy⟩⟩, hlast⟩
    · rw [hlists, List.forall_mem_singleton, List.forall_mem_cons, List.forall_mem_singleton]
      exact ⟨⟨by rw [hstart], by rw [hstop]; omega⟩, ⟨by rw [hstart]; omega, by rw [hstop]⟩⟩
    · rw [hlists, List.forall_mem_singleton]
      exact hordered

/-- A phrase with the span of the only phrase in it. -/
theorem around {t u : Phrase} (h : c.Laid source [u] d) (hspan : t.span = u.span)
    (hlists : t.lists = [[u]]) : c.Laid source [t] d := by
  obtain ⟨hahead, hplaced, hbetween, -, htidy⟩ := h
  rw [List.forall_mem_singleton] at hplaced hbetween
  refine ⟨hahead, ?_, ?_, List.pairwise_singleton .., fun hok => ?_⟩
  · rw [List.forall_mem_singleton, Phrase.throughout_iff, hlists, hspan]
    exact ⟨(Phrase.throughout_iff.1 hplaced).1, by simpa using hplaced⟩
  · rw [List.forall_mem_singleton, hspan]
    exact hbetween
  · obtain ⟨hutidy, hlast⟩ := htidy hok u (List.mem_singleton_self u)
    rw [List.forall_mem_singleton, Phrase.throughout_iff, hlists, hspan]
    refine ⟨⟨⟨?_, ?_⟩, by simpa using hutidy⟩, hlast⟩
    · rw [hlists, hspan, List.forall_mem_singleton, List.forall_mem_singleton]
      exact .refl _
    · rw [hlists, List.forall_mem_singleton]
      exact List.pairwise_singleton ..

/-- The same phrase by another name. -/
theorem rename {t u : Phrase} (h : c.Laid source [u] d) (hspan : t.span = u.span)
    (hlists : t.lists = u.lists) : c.Laid source [t] d := by
  obtain ⟨hahead, hplaced, hbetween, -, htidy⟩ := h
  rw [List.forall_mem_singleton] at hplaced hbetween
  refine ⟨hahead, ?_, ?_, List.pairwise_singleton .., fun hok => ?_⟩
  · rw [List.forall_mem_singleton, Phrase.throughout_iff, hlists, hspan]
    exact Phrase.throughout_iff.1 hplaced
  · rw [List.forall_mem_singleton, hspan]
    exact hbetween
  · obtain ⟨hutidy, hlast⟩ := htidy hok u (List.mem_singleton_self u)
    obtain ⟨⟨hcontains, hordered⟩, hbelow⟩ := Phrase.throughout_iff.1 hutidy
    rw [List.forall_mem_singleton, Phrase.throughout_iff, hlists, hspan]
    exact ⟨⟨⟨by rwa [hlists, hspan], by rwa [hlists]⟩, hbelow⟩, hlast⟩

/-- A phrase that is one token. -/
theorem token {t : Phrase} (h : c.Stands source) (hend : c.atEnd = false)
    (hspan : t.span = c.peek.span) (hlists : ∀ us ∈ t.lists, us = []) :
    c.Laid source [t] c.advance := by
  have hlt := size_advance_lt hend
  have hahead := Ahead.advance h
  refine (nil hahead).node ?_ (fun us hus => by simp [hlists us hus]) fun _ => hlt
  have hle := hahead.moved hlt
  rw [hspan, spanFrom, if_neg (Nat.not_lt.2 hle), lastStop_advance hend]
  rfl

/-- A phrase that stands for one that is missing. -/
theorem missing {t : Phrase} (h : c.Stands source) (h' : c.Ahead source d) (hfailed : d.Failed)
    (hspan : t.span = .point c.here) (hlists : ∀ us ∈ t.lists, us = []) :
    c.Laid source [t] d := by
  refine ⟨h', ?_, ?_, List.pairwise_singleton .., fun hok => absurd hfailed hok⟩
  · rw [List.forall_mem_singleton, Phrase.throughout_iff, hspan]
    exact ⟨.point h.here_isIn, fun us hus => by simp [hlists us hus]⟩
  · rw [List.forall_mem_singleton, hspan]
    exact ⟨Nat.le_refl _, h'.here⟩

end Laid

/-! ## Lists of phrases -/

/-- Each of the second lists is empty or a part of one of the first lists, in the same order. -/
def Covers (fs gs : List (List Phrase)) : Prop :=
  ∀ us ∈ gs, us = [] ∨ ∃ vs ∈ fs, us.Sublist vs

@[simp] theorem covers_nil (fs : List (List Phrase)) : Covers fs [] := by
  simp [Covers]

@[simp] theorem covers_cons :
    Covers fs (us :: gs) ↔ (us = [] ∨ ∃ vs ∈ fs, us.Sublist vs) ∧ Covers fs gs :=
  List.forall_mem_cons

theorem Covers.of_subset (h : ∀ us ∈ gs, us ∈ fs) : Covers fs gs :=
  fun us hus => .inr ⟨us, h us hus, .refl us⟩

/-- Between the two cursors phrases were read that hold these lists, each in order. -/
def Reach (source : List Char) (c : Cursor) (fs : List (List Phrase)) (d : Cursor) : Prop :=
  ∃ ts, c.Laid source ts d ∧ ∀ us ∈ fs, us.Sublist ts

namespace Reach

theorem ahead (h : c.Reach source fs d) : c.Ahead source d :=
  h.choose_spec.1.ahead

theorem nil (h : c.Ahead source d) : c.Reach source [] d :=
  ⟨[], .nil h, by simp⟩

theorem of_laid (h : c.Laid source ts d) : c.Reach source [ts] d :=
  ⟨ts, h, by simp⟩

/-- More lists are read behind the others. -/
theorem add (h : c.Reach source fs d) (h' : d.Reach source gs e) :
    c.Reach source (fs ++ gs) e := by
  obtain ⟨ts, hlaid, hfs⟩ := h
  obtain ⟨us, hlaid', hgs⟩ := h'
  refine ⟨ts ++ us, hlaid.append hlaid', List.forall_mem_append.2 ⟨fun vs hvs => ?_, fun vs hvs => ?_⟩⟩
  · exact (hfs vs hvs).trans (List.sublist_append_left ..)
  · exact (hgs vs hvs).trans (List.sublist_append_right ..)

/-- One list is read behind another one and goes on with it. -/
theorem append (h : c.Reach source [ts] d) (h' : d.Reach source [us] e) :
    c.Reach source [ts ++ us] e := by
  obtain ⟨vs, hlaid, hts⟩ := h
  obtain ⟨vs', hlaid', hus⟩ := h'
  refine ⟨vs ++ vs', hlaid.append hlaid', ?_⟩
  rw [List.forall_mem_singleton] at hts hus ⊢
  exact hts.append hus

theorem step (h : c.Reach source fs d) (h' : d.Ahead source e) : c.Reach source fs e := by
  simpa using h.add (nil h')

theorem after (h : c.Ahead source d) (h' : d.Reach source fs e) : c.Reach source fs e := by
  simpa using (nil h).add h'

theorem mono (h : c.Reach source fs d) (hcovers : Covers fs gs) : c.Reach source gs d := by
  obtain ⟨ts, hlaid, hfs⟩ := h
  refine ⟨ts, hlaid, fun us hus => ?_⟩
  rcases hcovers us hus with rfl | ⟨vs, hvs, hle⟩
  · exact List.nil_sublist ts
  · exact hle.trans (hfs vs hvs)

theorem laid (h : c.Reach source [ts] d) : c.Laid source ts d := by
  obtain ⟨us, hlaid, hsub⟩ := h
  exact hlaid.sublist (hsub ts (List.mem_singleton_self ts))

/-- One phrase is made of the lists. -/
theorem node {t : Phrase} (h : c.Reach source fs d) (hspan : t.span = d.spanFrom c.here)
    (hlists : Covers fs t.lists) (hmoved : ¬d.Failed → d.size < c.size) :
    c.Reach source [[t]] d := by
  obtain ⟨ts, hlaid, hsub⟩ := h.mono hlists
  exact of_laid (hlaid.node hspan hsub hmoved)

end Reach

end Cursor

open Cursor (Reach Ahead Covers)

/-! ## Readers -/

/-- What was read lays out these lists of phrases. -/
def Parsed.Lays (source : List Char) (r : Parsed c α) (F : α → List (List Phrase)) : Prop :=
  c.Stands source → c.Reach source (F r.value) r.next

/-- The same wherever reading begins. -/
def Parse.Lays (source : List Char) (p : Parse α) (F : α → List (List Phrase)) : Prop :=
  ∀ c, (p c).Lays source F

/-- Inside a phrase that begins at `o`: these lists were read for it, and once it has `begun` some
token was read, if nothing failed. -/
structure Cursor.Filling (source : List Char) (o : Cursor) (begun : Prop) (fs : List (List Phrase))
    (c : Cursor) : Prop where
  reach : o.Reach source fs c
  begun : begun → ¬c.Failed → c.size < o.size

/-- Reading goes on inside a phrase, which then consists of the second lists. -/
def Parse.Fills (source : List Char) (o : Cursor) (begun : Prop) (fs : List (List Phrase))
    (p : Parse α) (F : α → List (List Phrase)) : Prop :=
  ∀ c, o.Filling source begun fs c → o.Filling source begun (F (p c).value) (p c).next

theorem Cursor.Filling.step (h : o.Filling source begun fs c) (h' : c.Reach source gs d) :
    o.Filling source begun (fs ++ gs) d := by
  refine ⟨h.reach.add h', fun hb hok => ?_⟩
  exact Nat.lt_of_le_of_lt h'.ahead.size (h.begun hb fun hc => hok (h'.ahead.failed hc))

namespace Parse.Fills

variable {F : α → List (List Phrase)} {H : β → List (List Phrase)} {p : Parse α}
  {f : α → Parse β}

/-- A reader adds the lists that it lays out. -/
theorem of_lays (h : p.Lays source F) : p.Fills source o begun fs fun a => fs ++ F a :=
  fun c hc => hc.step (h c hc.reach.ahead.stands)

/-- Where a reader fills nothing yet it lays out what it fills. -/
theorem lays (h : ∀ o, p.Fills source o False [] F) : p.Lays source F :=
  fun c hc => (h c c ⟨.nil (.refl hc), False.elim⟩).reach

theorem bind (hp : p.Lays source F) (hf : ∀ a, (f a).Fills source o begun (fs ++ F a) H) :
    (p >>= f).Fills source o begun fs H :=
  fun c hc => hf _ _ (of_lays hp c hc)

/-- What lays out nothing may come between. -/
theorem skip {p : Parse α} (hp : p.Lays source fun _ => [])
    (hf : ∀ a, (f a).Fills source o begun fs H) : (p >>= f).Fills source o begun fs H :=
  bind hp fun a => by simpa using hf a

theorem look {g : Cursor → α} (hf : ∀ a, (f a).Fills source o begun fs H) :
    (Parse.look g >>= f).Fills source o begun fs H :=
  fun c hc => hf (g c) c hc

theorem pure {a : α} (h : Covers fs (F a)) : (Pure.pure a : Parse α).Fills source o begun fs F :=
  fun _ hc => ⟨hc.reach.mono h, hc.begun⟩

/-- A phrase that has begun ends where its span is taken. -/
theorem close {f : Span → Parse β} (t : Span → Phrase) (hspan : ∀ span, (t span).span = span)
    (hlists : ∀ span, Covers fs (t span).lists)
    (hf : ∀ span, (f span).Fills source o True [[t span]] H) :
    (Parse.spanFrom o.here >>= f).Fills source o True fs H :=
  fun c hc => hf (c.spanFrom o.here) c
    ⟨hc.reach.node (hspan _) (hlists _) (hc.begun trivial), hc.begun⟩

end Parse.Fills

namespace Parse.Lays

variable {F : α → List (List Phrase)} {p : Parse α}

theorem map {f : α → β} {H : β → List (List Phrase)} (h : p.Lays source fun a => H (f a)) :
    (f <$> p).Lays source H :=
  h

/-! ## Readers that lay out nothing -/

theorem next : Parse.next.Lays source fun _ => [] :=
  fun _ hc => .nil (.advance hc)

theorem unexpected (expected : String) : (Parse.unexpected expected).Lays source fun _ => [] :=
  fun _ hc => .nil (.unexpected hc expected)

theorem report (problem : Problem) (span : Span) :
    (Parse.report problem span).Lays source fun _ => [] :=
  fun _ hc => .nil (.report hc problem span)

theorem eatKeyword (word : String) : (Parse.eatKeyword word).Lays source fun _ => [] := by
  intro c hc
  unfold Parse.eatKeyword
  split
  · exact .nil (.advance hc)
  · exact .nil (.refl hc)

theorem eatPunct (mark : String) : (Parse.eatPunct mark).Lays source fun _ => [] :=
  fun _ hc => .nil (.eatPunct hc mark)

theorem expectPunct (mark : String) : (Parse.expectPunct mark).Lays source fun _ => [] :=
  fun _ hc => .nil (.expectPunct hc mark)

theorem expectKeyword (word : String) : (Parse.expectKeyword word).Lays source fun _ => [] :=
  fun _ hc => .nil (.expectKeyword hc word)

theorem name? (what : String) : (Parse.name? what).Lays source fun _ => [] := by
  intro c hc
  unfold Parse.name?
  split
  · exact .nil (.advance hc)
  · exact .nil (.unexpected hc what)

theorem optionalName : Parse.optionalName.Lays source fun _ => [] := by
  intro c hc
  unfold Parse.optionalName
  split
  · exact .nil (.advance hc)
  · exact .nil (.advance hc)
  · exact .nil (.refl hc)

theorem optionalString : Parse.optionalString.Lays source fun _ => [] := by
  intro c hc
  unfold Parse.optionalString
  split
  · exact .nil (.advance hc)
  · exact .nil (.refl hc)

theorem pure_nil (a : α) : (Pure.pure a : Parse α).Lays source fun _ => [] :=
  fun _ hc => .nil (.refl hc)

/-! ## Phrases with a token of their own -/

/-- A phrase that opens with a token of its own. -/
theorem begins {q : Parse Unit} {f : Position → Parse α} (hq : q.Lays source fun _ => [])
    (hmoved : ∀ c, ¬(q c).next.Failed → (q c).next.size < c.size)
    (h : ∀ o, (f o.here).Fills source o True [] F) :
    (do let start ← Parse.start
        q
        f start).Lays source F :=
  fun c hc => (h c (q c).next ⟨hq c hc, fun _ => hmoved c⟩).reach

/-- A phrase that begins with the next token. -/
theorem behindToken {f : Token → Parse α} (hend : c.atEnd = false)
    (h : (f c.peek).Fills source c True [] F) : ((Parse.next >>= f) c).Lays source F :=
  fun hc => (h c.advance ⟨.nil (.advance hc), fun _ _ => Cursor.size_advance_lt hend⟩).reach

/-- A phrase that opens with a word of its own. -/
theorem opens {f : Position → Parse α} (h : ∀ o, (f o.here).Fills source o True [] F) :
    (do let start ← Parse.start
        Parse.expectKeyword w
        f start).Lays source F := by
  refine begins (expectKeyword w) (fun c hok => ?_) h
  have hok : ¬(c.expectKeyword w).Failed := hok
  show (c.expectKeyword w).size < c.size
  unfold Cursor.expectKeyword at hok ⊢
  split
  · exact Cursor.size_advance_lt (Cursor.atEnd_eq_false_of_atKeyword ‹_›)
  · rw [if_neg ‹_›] at hok
    exact absurd (Cursor.failed_unexpected c _) hok

/-- A phrase that opens with a mark. -/
theorem opensWithMark {mark : String} {f : Position → Parse α}
    (h : ∀ o, (f o.here).Fills source o True [] F) :
    (do let start ← Parse.start
        Parse.expectPunct mark
        f start).Lays source F := by
  refine begins (expectPunct mark) (fun c hok => ?_) h
  have hok : ¬(c.expectPunct mark).Failed := hok
  show (c.expectPunct mark).size < c.size
  unfold Cursor.expectPunct at hok ⊢
  split
  · exact Cursor.size_advance_lt_of_atPunct ‹_›
  · rw [if_neg ‹_›] at hok
    exact absurd (Cursor.failed_unexpected c _) hok

end Parse.Lays

/-! ## Blocks -/

namespace Cursor

/-- A block begins with a brace, or fails. -/
theorem size_block_lt {context : String} {item : (d : Cursor) → d.size < c.size → Parsed d (Option α)}
    (hok : ¬(c.block context item).next.Failed) : (c.block context item).next.size < c.size := by
  unfold block at hok ⊢
  split at hok
  · rename_i h
    rw [dif_pos h]
    have hlt := size_advance_lt_of_atPunct h
    exact Nat.lt_of_le_of_lt (Nat.le_trans (size_expectPunct_le _ _) (blockItems _ _ _ _ hlt).le) hlt
  · exact absurd (failed_unexpected c _) hok

variable {forest : α → List Phrase}

theorem lays_blockItems {bound : Nat} (context : String)
    {item : (d : Cursor) → d.size < bound → Parsed d (Option α)}
    (hitem : ∀ d hd, (item d hd).Lays source fun a => [a.toList.flatMap forest]) {c : Cursor}
    (hc : c.size < bound) :
    (blockItems bound context item c hc).Lays source fun as => [as.flatMap forest] := by
  intro hstands
  induction hn : c.size using Nat.strongRecOn generalizing c with
  | _ n ih =>
    rw [blockItems]
    split
    · exact (Reach.of_laid (.nil (.refl hstands)))
    · rename_i hstop
      have hturn := hitem c hc hstands
      have hlt := size_afterTurn_lt (not_atEnd_of_not_stop hstop) (item c hc).le context
      have hafter := hturn.step (hturn.ahead.afterTurn context)
      have htail := ih _ (hn ▸ hlt) (Nat.lt_trans hlt hc) hafter.ahead.stands rfl
      have hall := hafter.append htail
      dsimp only [Parsed.weaken_value, Parsed.map_value, Parsed.weaken_next, Parsed.map_next]
      cases hv : (item c hc).value with
      | none => simpa [hv] using hall
      | some a => simpa [hv] using hall

/-- The phrases of the items are those of the block, in order. -/
theorem lays_block (context : String)
    {item : (d : Cursor) → d.size < c.size → Parsed d (Option α)}
    (hitem : ∀ d hd, (item d hd).Lays source fun a => [a.toList.flatMap forest]) :
    (c.block context item).Lays source fun as => [as.flatMap forest] := by
  intro hc
  unfold block
  split
  · rename_i h
    have hopen := Ahead.advance hc
    have hbody := lays_blockItems context hitem (size_advance_lt_of_atPunct h) hopen.stands
    exact (Reach.after hopen hbody).step (.expectPunct hbody.ahead.stands _)
  · exact Reach.of_laid (.nil (.unexpected hc _))

end Cursor

/-- A block of items that are phrases. -/
theorem Cursor.lays_phrases {f : α → Phrase} (context : String)
    {item : (d : Cursor) → d.size < c.size → Parsed d (Option α)}
    (hitem : ∀ d hd, (item d hd).Lays source fun a => [a.toList.map f]) :
    (c.block context item).Lays source fun as => [as.map f] := by
  simp only [List.map_eq_flatMap] at hitem ⊢
  exact lays_block context hitem

namespace Parse.Lays

/-- A block of items of which each lays out some phrases. -/
theorem block {forest : α → List Phrase} {context : String} {item : Parse (Option α)}
    (hitem : item.Lays source fun a => [a.toList.flatMap forest]) :
    (Parse.block context item).Lays source fun as => [as.flatMap forest] :=
  fun _ => Cursor.lays_block _ fun d _ => hitem d

theorem phrases {f : α → Phrase} {context : String} {item : Parse (Option α)}
    (hitem : item.Lays source fun a => [a.toList.map f]) :
    (Parse.block context item).Lays source fun as => [as.map f] :=
  fun _ => Cursor.lays_phrases _ fun d _ => hitem d

end Parse.Lays

end DiagramTour
