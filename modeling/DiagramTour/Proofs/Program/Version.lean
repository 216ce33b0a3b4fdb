import DiagramTour.Proofs.Program.ReadsItem
import DiagramTour.Proofs.Program.YieldsItem

/-!
# Versions

A version consists of whole numbers with points between them, however they were cut into tokens.
When it is printed a point between two of them may make one token of what were two, which does not
change the text.
-/

namespace DiagramTour

open Cursor (Onward)

variable {c : Cursor} {mid : List Char} {g : String} {gs : List String}

/-! ## What is read -/

theorem pointed_append (gs hs : List String) : pointed (gs ++ hs) = pointed gs ++ pointed hs :=
  List.flatMap_append

/-- A token of a version is one whole number, or two with a point between them. -/
theorem Cursor.Genuine.versionPart (h : c.Genuine)
    (hpart : Parse.versionTail.isVersionPart c.peek = true) :
    ∃ g gs, c.peek.image.toList = String.toList g ++ pointed gs ∧ ∀ w ∈ g :: gs, Whole w := by
  have himage : Image c.peek.image.toList c.peek.lexeme := by
    apply h.image <;> intros <;> intro heq <;> simp [Parse.versionTail.isVersionPart, heq] at hpart
  unfold Parse.versionTail.isVersionPart at hpart
  split at hpart
  · rename_i v hlex
    rw [hlex] at himage
    obtain ⟨g, fs, htext, hg, hfs⟩ := whole_of_image_number himage
    exact ⟨g, [String.ofList fs], by simp [htext, pointed],
      List.forall_mem_cons.2 ⟨hg, List.forall_mem_singleton.2 hfs.whole⟩⟩
  · rename_i v hlex
    rw [hlex] at himage
    exact ⟨c.peek.image, [], by simp [pointed], List.forall_mem_singleton.2 ⟨v, himage⟩⟩
  · cases hpart

theorem yields_versionTail (c : Cursor) : (Parse.versionTail c).Yields fun s =>
    ∃ gs, s.toList = pointed gs ∧ ∀ w ∈ gs, Whole w := by
  induction hn : c.size using Nat.strongRecOn generalizing c with
  | _ n ih =>
    rw [Parse.versionTail]
    split
    · rename_i h
      obtain ⟨hpoint, hpart⟩ := Bool.and_eq_true_iff.1 h
      have hlt := Cursor.size_advance_lt_of_atPunct hpoint
      have hle := c.advance.size_advance_le
      have htail := ih _ (by omega) c.advance.advance rfl
      refine ⟨((Onward.advance c).trans (.advance _)).trans htail.onward, fun hgen hok => ?_⟩
      rw [Cursor.second_eq] at hpart
      obtain ⟨g, gs, htext, hgs⟩ := hgen.advance.versionPart hpart
      obtain ⟨hs, htail, hhs⟩ := htail.value hgen.advance.advance hok
      refine ⟨g :: gs ++ hs, ?_, ?_⟩
      · rw [Parsed.weaken_value, Parsed.map_value, Cursor.second_eq]
        simp [htext, htail, pointed]
      · rintro w hw
        rcases List.mem_append.1 hw with hw | hw
        · exact hgs w hw
        · exact hhs w hw
    · exact .here ⟨[], rfl, by simp⟩

theorem Parse.Yields.version : Parse.version.Yields Version.WellFormed := by
  refine look fun start c => .look ?_
  split
  · rename_i hpart
    refine .next (fun hgen => hgen.versionPart hpart) ?_
    refine Parsed.Yields.andThen (yields_versionTail _) fun tail d _ => .look (.here ?_)
    rintro ⟨hs, htail, hhs⟩ ⟨g, gs, htext, hgs⟩
    have hraw : c.peek.image ++ tail = ".".intercalate (g :: (gs ++ hs)) := by
      rw [← String.toList_inj, toList_intercalate_point, pointed_append, String.toList_append, htext,
        htail, List.append_assoc]
    refine ⟨⟨g, gs ++ hs, hraw, ?_⟩, rfl⟩
    rw [← List.cons_append]
    exact List.forall_mem_append.2 ⟨hgs, hhs⟩
  · exact bind (unexpected _) (fun _ => look fun _ => pure fun h => h.elim) c

/-! ## What is printed -/

theorem noDigit_pointed (gs : List String) (mid : List Char) :
    NoDigit (pointed gs ++ '\n' :: mid) := by
  cases gs with
  | nil =>
    rintro _ _ ⟨⟩
    decide
  | cons g gs => exact noDigit_point _

theorem unitOf_pointed (gs : List String) (mid : List Char) :
    unitOf (pointed gs ++ '\n' :: mid) = .none := by
  cases gs with
  | nil => rfl
  | cons g gs => rfl

theorem calm_pointed (hcalm : Calm ('\n' :: mid)) (gs : List String) :
    Calm (pointed gs ++ '\n' :: mid) := by
  cases gs with
  | nil => exact hcalm
  | cons g gs => exact calm_punct (by decide) _

/-- The first token of whole numbers with points between them is one of them, or two. -/
theorem Whole.versionPart (hg : Whole g) (hgs : ∀ w ∈ gs, Whole w) (hcalm : Calm ('\n' :: mid))
    (hc : c.At (g.toList ++ (pointed gs ++ '\n' :: mid))) :
    ∃ hs gs', gs = hs ++ gs' ∧ Parse.versionTail.isVersionPart c.peek = true ∧
      c.peek.image.toList = g.toList ++ pointed hs ∧ c.advance.At (pointed gs' ++ '\n' :: mid) := by
  have hwhole {v : Float} (hm : Munches g.toList (pointed gs ++ '\n' :: mid) (.int v)) :
      ∃ hs gs', gs = hs ++ gs' ∧ Parse.versionTail.isVersionPart c.peek = true ∧
        c.peek.image.toList = g.toList ++ pointed hs ∧
        c.advance.At (pointed gs' ++ '\n' :: mid) := by
    have hshows := hc.shows hm (.inr (calm_pointed hcalm gs))
    exact ⟨[], gs, rfl, by simp [Parse.versionTail.isVersionPart, hshows.lexeme],
      by simp [hshows.image, pointed], hshows.next⟩
  cases gs with
  | nil =>
    obtain ⟨v, himage⟩ := hg
    exact hwhole (himage.munches (fenced_lineFeed mid))
  | cons w gs =>
    obtain ⟨sign, neg, ds, hw, hsign, hds⟩ := whole_iff.1 (hgs w List.mem_cons_self)
    have hpoint : pointed (w :: gs) ++ '\n' :: mid =
        '.' :: (sign ++ (ds ++ (pointed gs ++ '\n' :: mid))) := by simp [pointed, hw]
    -- A sign keeps the point from making a fraction
    have hsigned (d : Char) (hd : d.isDigit = false) (hsign : sign = [d]) :
        ∃ v, Munches g.toList (pointed (w :: gs) ++ '\n' :: mid) (.int v) := by
      rw [hpoint, hsign]
      refine hg.munches_point ?_
      rintro _ _ ⟨⟩
      exact hd
    cases hsign with
    | none =>
      obtain ⟨v, hm⟩ := hg.munches_decimal hds (noDigit_pointed gs mid) (unitOf_pointed gs mid)
      have htext : g.toList ++ (pointed (w :: gs) ++ '\n' :: mid) =
          g.toList ++ '.' :: ds ++ (pointed gs ++ '\n' :: mid) := by rw [hpoint]; simp
      rw [htext] at hc
      have hshows := hc.shows hm (.inr (calm_pointed hcalm gs))
      exact ⟨[w], gs, rfl, by simp [Parse.versionTail.isVersionPart, hshows.lexeme],
        by simp [hshows.image, pointed, hw], hshows.next⟩
    | minus =>
      obtain ⟨v, hm⟩ := hsigned '-' (by decide) rfl
      exact hwhole hm
    | plus =>
      obtain ⟨v, hm⟩ := hsigned '+' (by decide) rfl
      exact hwhole hm

theorem Cursor.reads_versionTail (hgs : ∀ w ∈ gs, Whole w) (hcalm : Calm ('\n' :: mid))
    (hpoint : Coming ('\n' :: mid) fun t => t.isPunct "." = false)
    (hc : c.At (pointed gs ++ '\n' :: mid)) :
    (Parse.versionTail c).Reads ('\n' :: mid) fun s => s.toList = pointed gs := by
  induction hn : gs.length using Nat.strongRecOn generalizing c gs with
  | _ n ih =>
    cases gs with
    | nil =>
      have hnone : c.atPunct "." = false := hpoint.peek c hc
      rw [Parse.versionTail, dif_neg (by simp [hnone])]
      exact ⟨rfl, hc⟩
    | cons g gs =>
      have hc : c.At ('.' :: (g.toList ++ (pointed gs ++ '\n' :: mid))) := by
        simpa [pointed] using hc
      have hat : c.atPunct "." = true := by simp [hc.atPunct (by decide)]
      have hshows := hc.punct (by decide) (.inl (by decide))
      obtain ⟨hs, gs', rfl, hpart, himage, hnext⟩ := Whole.versionPart (hgs g List.mem_cons_self)
        (fun w hw => hgs w (List.mem_cons_of_mem _ hw)) hcalm hshows.next
      obtain ⟨htail, hend⟩ := ih gs'.length (by simp at hn; omega)
        (fun w hw => hgs w (List.mem_cons_of_mem _ (List.mem_append_right _ hw))) hnext rfl
      rw [Parse.versionTail, dif_pos (by simp [hat, second_eq, hpart])]
      refine ⟨?_, hend⟩
      rw [Parsed.weaken_value, Parsed.map_value, second_eq]
      simp [himage, htail, pointed]

theorem Parse.Reads.version {v : Version} (h : v.WellFormed) (hcalm : Calm ('\n' :: mid))
    (hpoint : Coming ('\n' :: mid) fun t => t.isPunct "." = false) :
    Parse.version.Reads (v.raw.toList ++ '\n' :: mid) ('\n' :: mid)
      fun v' => v'.raw = v.raw ∧ v'.parts = v.parts := by
  obtain ⟨⟨g, gs, hraw, hall⟩, hparts⟩ := h
  obtain ⟨hg, hgs⟩ := List.forall_mem_cons.1 hall
  have htext : v.raw.toList ++ '\n' :: mid = g.toList ++ (pointed gs ++ '\n' :: mid) := by
    rw [hraw, toList_intercalate_point, List.append_assoc]
  rw [htext]
  refine see fun start => lookAt fun c hc => ?_
  obtain ⟨hs, gs', rfl, hpart, himage, hnext⟩ := hg.versionPart hgs hcalm hc
  obtain ⟨htail, hend⟩ := Cursor.reads_versionTail
    (fun w hw => hgs w (List.mem_append_right _ hw)) hcalm hpoint hnext
  have hread : c.peek.image ++ (Parse.versionTail c.advance).value = v.raw := by
    rw [← String.toList_inj, String.toList_append, himage, htail, hraw, toList_intercalate_point,
      pointed_append, List.append_assoc]
  rw [if_pos hpart]
  refine ⟨⟨hread, ?_⟩, hend⟩
  rw [hparts, ← hread]
  rfl

end DiagramTour
