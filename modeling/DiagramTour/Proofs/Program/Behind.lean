import DiagramTour.Proofs.Program.VerbatimBlock
import DiagramTour.Proofs.Token.Partition

/-!
# What stands behind the last token

A text that ends with a token is cut into the same tokens when something follows behind a blank.  A raw
block alone counts on the end of its line, so the last token must be none, and nothing behind it may close
one that the text left open.

## Architecture

- `heredoc?_trail` and `CutsOff.trail` say that what trails behind a blank, without a bracket, changes
  neither a raw block nor a token before it.
- `Cursor.Before.trail` goes along the tokens, by `Cut.trail` for each.  Whether the last of them allows a sign decides how
  what stands behind it is cut.
-/

namespace DiagramTour

variable {s : Bool} {m : Munch} {t cs ws im w y pre : List Char}

/-- Behind a blank more than carriage returns comes before the end of the line. -/
theorem mem_of_endsLine_blank {z : List Char} (h : EndsLine (z ++ ' ' :: y)) : '\n' ∈ z := by
  by_contra hz
  have hblank : ' ' ∈ (z ++ ' ' :: y).takeWhile (· != '\n') := by
    rw [(takeWhile_line hz _).1]
    exact List.mem_append_right _ (by simp)
  exact absurd (h _ hblank) (by decide)

/-- What trails neither opens nor closes a raw block that begins before it, unless one ends right there. -/
theorem heredoc?_trail (hy : '>' ∉ y) (h : ∀ m, heredoc? t = some m → '\n' ∈ t.drop m.length) :
    heredoc? (t ++ ' ' :: y) = heredoc? t := by
  cases hm : heredoc? t with
  | some m =>
    obtain ⟨tag, header, lines, post, hparts, hpost, rfl, hlen, hclosed, hlex⟩ :=
      rawParts_of_heredoc? hm
    have hmem : '\n' ∈ post := by
      have hmem := h m hm
      rwa [hlen, List.drop_left' rfl] at hmem
    obtain ⟨k, hk, hklen, hkclosed, hklex⟩ :=
      heredoc?_rawImage hparts ((endsLine_append_iff hmem (' ' :: y)).2 hpost)
    rw [List.append_assoc, hk, Munch.eq_of_fields (hklex.trans hlex.symm) (hklen.trans hlen.symm)
      (hkclosed.trans hclosed.symm)]
  | none =>
    rw [Option.eq_none_iff_forall_ne_some]
    intro k hk
    obtain ⟨tag, header, lines, post, hparts, hpost, heq, -⟩ := rawParts_of_heredoc? hk
    rcases List.append_eq_append_iff.1 heq with ⟨z, himage, htrail⟩ | ⟨z, rfl, rfl⟩
    · cases hz : z.getLast? with
      | none =>
        -- The block would end where the text does, and its line does not
        obtain rfl := List.getLast?_eq_none_iff.1 hz
        rw [List.nil_append] at htrail
        rw [← htrail] at hpost
        exact absurd (mem_of_endsLine_blank (z := []) hpost) List.not_mem_nil
      | some a =>
        -- The block would end behind the text, with a bracket
        have hlast := getLast?_rawImage tag header lines
        rw [himage, List.getLast?_append, hz] at hlast
        obtain rfl : a = '>' := by simpa using hlast
        have hmem : '>' ∈ ' ' :: y := by
          rw [htrail]
          exact List.mem_append_left _ (List.mem_of_getLast? hz)
        exact hy (by simpa using hmem)
    · -- The block would end in the text, and would have been found there
      have hline := (endsLine_append_iff (mem_of_endsLine_blank hpost) _).1 hpost
      obtain ⟨k', hk', -⟩ := heredoc?_rawImage hparts hline
      rw [hk'] at hm
      cases hm

/-- A token is cut off in the same way before what trails. -/
theorem CutsOff.trail (h : CutsOff s ws im w m) (hy : '>' ∉ y)
    (hraw : ∀ tag body, m.lexeme = .heredoc tag body → '\n' ∈ w) :
    CutsOff s ws im (w ++ ' ' :: y) m := by
  have hnil : CutsOff s ws im (w ++ []) m := by rwa [List.append_nil]
  refine hnil.before_blank (by decide) ?_ (.inl (.inl rfl))
  rw [List.append_nil, ← List.append_assoc]
  refine heredoc?_trail hy fun k hk => ?_
  -- A raw block that is recognised there is the token
  have hkm : k = m := by
    have hmunch := h.munch
    rw [munch?_eq, hk] at hmunch
    exact Option.some.inj hmunch
  obtain ⟨tag, body, hlex⟩ := lexeme_of_heredoc? hk
  rw [hkm, h.length, List.drop_left' rfl]
  exact hraw tag body (hkm ▸ hlex)

namespace Cursor

variable {c d : Cursor}

theorem rest_eq_cons (hend : c.atEnd = false) : c.rest = c.peek :: c.advance.rest := by
  unfold atEnd at hend
  unfold peek advance
  cases hr : c.rest with
  | nil => simp [hr] at hend
  | cons t ts => simp

/-- Where carriage returns alone are left no token is. -/
theorem Before.atEnd_of_returns (h : c.Before s pre w) (hw : ∀ x ∈ w, x = '\r') : c.atEnd = true := by
  have htokens : ∀ (w : List Char) (p : Position), (∀ x ∈ w, x = '\r') → (lexFrom s p w).tokens = [] := by
    intro w
    induction w with
    | nil =>
      intro p _
      rw [lexFrom_eq]
      rfl
    | cons x w ih =>
      intro p hw
      obtain ⟨hx, hrest⟩ := List.forall_mem_cons.1 hw
      rw [hx, lexFrom_of_isBlank (by decide)]
      exact ih _ hrest
  rw [atEnd, h.rest, htokens w _ hw]
  rfl

/-- Behind a raw block that is not the last token the next line begins. -/
theorem Cut.mem_lineFeed (h : c.Cut s pre ws im w m) {tag body : String}
    (hraw : m.lexeme = .heredoc tag body) (hend : c.advance.atEnd = false) : '\n' ∈ w := by
  have hmem : '\n' ∈ im := by
    rcases munch?_cases h.munch with hfound | ⟨-, hflat⟩
    · obtain ⟨tag, header, lines, post, -, -, heq, hlen, -⟩ := rawParts_of_heredoc? hfound
      obtain ⟨rfl, -⟩ := List.append_inj heq (by rw [← hlen, h.length])
      simp [rawImage]
    · exact absurd hraw (not_heredoc_of_flat? hflat tag body)
  by_contra hno
  have hline := h.cutsOff.endsLine hmem
  have hreturns : ∀ x ∈ w, x = '\r' := fun x hx => by
    have htake := (takeWhile_line hno []).1
    rw [List.append_nil, List.takeWhile_nil, List.append_nil] at htake
    exact hline x (by rwa [htake])
  rw [h.next.atEnd_of_returns hreturns] at hend
  cases hend

/-- Nothing stands between the last token and the end of a text that ends with it. -/
theorem Cut.eq_nil (h : c.Cut s pre ws im w m)
    (hstop : c.peek.span.stop = Position.start.advance (pre ++ (ws ++ (im ++ w)))) : w = [] := by
  rw [h.peek] at hstop
  have hoffset := congrArg Position.offset hstop
  simp only [Position.offset_advance, utf8Length_append] at hoffset
  by_contra hne
  have := utf8Length_pos hne
  omega

theorem Cut.allowsSign (h : c.Cut s pre ws im w m) :
    c.peek.allowsSign = signAfter m.lexeme (String.ofList im) := by
  rw [h.peek]
  rfl

/-- A token is cut off in the longer text as well, if what trails it there does not change it. -/
theorem Cut.trail (h : c.Cut s pre ws im w m) (h' : d.Before s pre (ws ++ (im ++ w) ++ ' ' :: y))
    (hy : '>' ∉ y) (hraw : ∀ tag body, m.lexeme = .heredoc tag body → '\n' ∈ w) :
    d.rest = c.peek :: d.advance.rest ∧
      d.advance.Before (signAfter m.lexeme (String.ofList im)) (pre ++ ws ++ im) (w ++ ' ' :: y) := by
  have hsame : ws ++ (im ++ w) ++ ' ' :: y = ws ++ (im ++ (w ++ ' ' :: y)) := by simp
  rw [hsame] at h'
  obtain ⟨hpeek, hgoing, hnext⟩ := h'.cutsOff (h.cutsOff.trail hy hraw)
  refine ⟨by rw [rest_eq_cons hgoing, hpeek, h.peek], ?_⟩
  rwa [List.append_assoc pre]

/-- A text that ends with a token, which is no raw block, has the same tokens before what trails: a cursor
over the longer text comes to stand behind them, and whether a sign is allowed there is up to the last
one. -/
theorem Before.trail (h : c.Before s pre cs) (h' : d.Before s pre (cs ++ ' ' :: y))
    (hclean : hasErrors (lexFrom true .start c.source).diagnostics = false) (hy : '>' ∉ y)
    {t : Token} (ht : c.rest.getLast? = some t) (hstop : t.span.stop = Position.start.advance (pre ++ cs))
    (hraw : ∀ tag body, t.lexeme ≠ .heredoc tag body) :
    ∃ e, Onward d e ∧ d.rest = c.rest ++ e.rest ∧ e.Before t.allowsSign (pre ++ cs) (' ' :: y) := by
  induction hn : c.size using Nat.strongRecOn generalizing c d s pre cs with
  | _ n ih =>
    have hend : c.atEnd = false := by
      cases hr : c.rest with
      | nil => simp [hr] at ht
      | cons t ts => simp [Cursor.atEnd, hr]
    obtain ⟨ws, im, w, m, rfl, hcut⟩ := h.cut hclean hend
    rw [rest_eq_cons hend] at ht ⊢
    have hplace : pre ++ ws ++ im ++ w = pre ++ (ws ++ (im ++ w)) := by simp
    cases hlast : c.advance.atEnd with
    | true =>
      -- This is the last token
      rw [atEnd, List.isEmpty_iff] at hlast
      obtain rfl : c.peek = t := by simpa [hlast] using ht
      obtain rfl := hcut.eq_nil hstop
      obtain ⟨hrest, hnext⟩ := hcut.trail h' hy fun tag body hlex => by
        exact absurd (by rw [hcut.peek]; exact hlex) (hraw tag body)
      refine ⟨d.advance, .advance d, by rw [hrest, hlast]; rfl, ?_⟩
      rw [hcut.allowsSign]
      simpa using hnext
    | false =>
      obtain ⟨hrest, hnext⟩ := hcut.trail h' hy fun tag body hlex => hcut.mem_lineFeed hlex hlast
      have ht' : c.advance.rest.getLast? = some t := by
        rwa [List.getLast?_cons_of_ne_nil (by simpa [atEnd] using hlast)] at ht
      obtain ⟨e, honward, hbehind, hbefore⟩ := ih _ (hn ▸ size_advance_lt hend) hcut.next hnext
        (by rwa [(Onward.advance c).source]) ht' (by rwa [hplace]) rfl
      refine ⟨e, (Onward.advance d).trans honward, ?_, hplace ▸ hbefore⟩
      rw [hrest, hbehind]
      rfl

end Cursor

end DiagramTour
