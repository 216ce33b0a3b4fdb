import DiagramTour.Proofs.Token.Image
import Mathlib.Data.List.DropRight

/-!
# Raw blocks

A raw block opens with three brackets, a tag and the rest of a line that is blank, and closes with
the first line that consists of the tag and three brackets.  So it is the one kind of token that
depends on text far behind its opening; but no more of that text counts than the end of its
closing line.
-/

namespace DiagramTour

variable {cs mark lines post tag header : List Char} {m : Munch}

/-- Nothing but carriage returns comes before the end of the line. -/
def EndsLine (cs : List Char) : Prop :=
  ∀ x ∈ cs.takeWhile (· != '\n'), x = '\r'

/-- What closes a raw block. -/
def closingMark (tag : List Char) : List Char :=
  tag ++ ['>', '>', '>']

/-! ## Lines -/

/-- Of a text only the first line counts. -/
theorem endsLine_append_iff (hmem : '\n' ∈ cs) (z : List Char) : EndsLine (cs ++ z) ↔ EndsLine cs := by
  obtain ⟨as, bs, rfl⟩ := List.append_of_mem hmem
  have htake (x : List Char) : (as ++ '\n' :: x).takeWhile (· != '\n') = as.takeWhile (· != '\n') :=
    takeWhile_fence (z := '\n') (by decide) as x
  unfold EndsLine
  rw [List.append_assoc, List.cons_append, htake, htake]

theorem trimReturns_append (h : mark.getLast? ≠ some '\r') {rs : List Char}
    (hrs : ∀ x ∈ rs, x = '\r') : trimReturns (mark ++ rs) = mark := by
  have hdrop : rs.reverse.dropWhile (· == '\r') = [] := by
    simpa using hrs
  have hmark : mark.reverse.dropWhile (· == '\r') = mark.reverse := by
    rw [List.dropWhile_eq_self_iff]
    intro hpos heq
    apply h
    simp only [beq_iff_eq] at heq
    rw [← heq, List.getElem_zero, List.head_reverse, List.getLast?_eq_some_getLast]
  rw [trimReturns, List.reverse_append, List.dropWhile_append, hdrop]
  simp [hmark]

/-- What is trimmed away are carriage returns. -/
theorem exists_eq_trimReturns (cs : List Char) :
    ∃ rs, cs = trimReturns cs ++ rs ∧ ∀ x ∈ rs, x = '\r' := by
  refine ⟨(cs.reverse.takeWhile (· == '\r')).reverse, ?_, ?_⟩
  · rw [trimReturns, ← List.reverse_append, List.takeWhile_append_dropWhile, List.reverse_reverse]
  · intro x hx
    have := List.mem_takeWhile_imp (List.mem_reverse.1 hx)
    simpa using this

theorem takeWhile_line {line : List Char} (h : '\n' ∉ line) (rest : List Char) :
    (line ++ rest).takeWhile (· != '\n') = line ++ rest.takeWhile (· != '\n') ∧
      (line ++ rest).dropWhile (· != '\n') = rest.dropWhile (· != '\n') := by
  have hall : ∀ x ∈ line, (x != '\n') = true := by
    intro x hx
    simp only [bne_iff_ne]
    rintro rfl
    exact h hx
  exact ⟨List.takeWhile_append_of_pos hall, List.dropWhile_append_of_pos hall⟩

theorem not_mem_takeWhile_line (cs : List Char) : '\n' ∉ cs.takeWhile (· != '\n') := fun h => by
  simpa using List.mem_takeWhile_imp h

/-- A line feed is what ends a line. -/
theorem dropWhile_line (cs : List Char) :
    cs.dropWhile (· != '\n') = [] ∨ ∃ rest, cs.dropWhile (· != '\n') = '\n' :: rest := by
  cases h : cs.dropWhile (· != '\n') with
  | nil => exact .inl rfl
  | cons c rest =>
    refine .inr ⟨rest, ?_⟩
    have hc : ¬((fun x : Char => x != '\n') c = true) := by
      have hne : cs.dropWhile (· != '\n') ≠ [] := by simp [h]
      have := List.head_dropWhile_not (p := (· != '\n')) (l := cs) hne
      simpa [h] using this
    simp only [bne_iff_ne, ne_eq, not_not] at hc
    rw [hc]

theorem linesBefore?_eq (mark cs : List Char) : linesBefore? mark cs =
    if trimReturns (cs.takeWhile (· != '\n')) = mark then some []
    else match cs.dropWhile (· != '\n') with
      | [] => none
      | c :: rest =>
        (linesBefore? mark rest).map fun body => cs.takeWhile (· != '\n') ++ c :: body := by
  rw [linesBefore?]
  split
  · rfl
  · split <;> rename_i heq <;> rw [heq]

/-- The lines before the closing one end where it begins. -/
theorem linesBefore?_spec (h : linesBefore? mark cs = some lines) :
    ∃ post, cs = lines ++ (mark ++ post) ∧ EndsLine post := by
  induction hn : cs.length using Nat.strongRecOn generalizing cs lines with
  | _ n ih =>
    rw [linesBefore?_eq] at h
    split at h
    · rename_i hmark
      cases h
      obtain ⟨rs, hline, hrs⟩ := exists_eq_trimReturns (cs.takeWhile (· != '\n'))
      rw [hmark] at hline
      refine ⟨rs ++ cs.dropWhile (· != '\n'), ?_, ?_⟩
      · rw [List.nil_append, ← List.append_assoc, ← hline, List.takeWhile_append_dropWhile]
      · have hnl : '\n' ∉ rs := fun hmem => by
          have := hrs _ hmem
          revert this
          decide
        intro x hx
        rw [(takeWhile_line hnl _).1] at hx
        rcases dropWhile_line cs with hd | ⟨rest, hd⟩
        · rw [hd] at hx
          exact hrs x (by simpa using hx)
        · rw [hd] at hx
          exact hrs x (by simpa using hx)
    · rcases dropWhile_line cs with hd | ⟨rest, hd⟩
      · rw [hd] at h
        cases h
      · rw [hd] at h
        obtain ⟨body, hbody, rfl⟩ := Option.map_eq_some_iff.1 h
        have hcs : cs = cs.takeWhile (· != '\n') ++ '\n' :: rest := by
          rw [← hd, List.takeWhile_append_dropWhile]
        have hlt : rest.length < n := by
          have := congrArg List.length hcs
          rw [List.length_append, List.length_cons] at this
          omega
        obtain ⟨post, hrest, hpost⟩ := ih _ hlt hbody rfl
        refine ⟨post, ?_, hpost⟩
        rw [List.append_assoc, List.cons_append, ← hrest]
        exact hcs

/-- Of what follows the closing mark only the end of its line counts. -/
theorem linesBefore?_congr (hnl : '\n' ∉ mark) (hlast : mark.getLast? ≠ some '\r')
    {post post' : List Char} (hpost' : EndsLine post')
    (h : linesBefore? mark (lines ++ (mark ++ post)) = some lines) :
    linesBefore? mark (lines ++ (mark ++ post')) = some lines := by
  induction hn : lines.length using Nat.strongRecOn generalizing lines with
  | _ n ih =>
    rw [linesBefore?_eq] at h
    split at h
    · cases h
      rw [linesBefore?_eq, List.nil_append, (takeWhile_line hnl _).1, trimReturns_append hlast hpost',
        if_pos rfl]
    · rename_i hmark
      rcases dropWhile_line (lines ++ (mark ++ post)) with hd | ⟨rest, hd⟩
      · rw [hd] at h
        cases h
      · rw [hd] at h
        obtain ⟨body, hbody, hlines⟩ := Option.map_eq_some_iff.1 h
        -- The first line and what is behind it are the same whatever stands behind the mark
        generalize hline : (lines ++ (mark ++ post)).takeWhile (· != '\n') = line at *
        have hno : '\n' ∉ line := by
          rw [← hline]
          exact not_mem_takeWhile_line _
        have hrest : rest = body ++ (mark ++ post) := by
          have hcs := List.takeWhile_append_dropWhile (p := (· != '\n'))
            (l := lines ++ (mark ++ post))
          rw [hline, hd, ← hlines, List.append_assoc] at hcs
          exact (List.cons.inj (List.append_cancel_left hcs)).2
        subst hlines
        have hlt : body.length < n := by
          rw [← hn, List.length_append, List.length_cons]
          omega
        have hbody' := ih _ hlt (by rw [← hrest]; exact hbody) rfl
        rw [linesBefore?_eq, List.append_assoc, List.cons_append, (takeWhile_line hno _).1,
          (takeWhile_line hno _).2]
        simp [hmark, hbody']

/-- The lines before the closing one, one by one. -/
theorem linesBefore?_cons {post : List Char}
    (h : linesBefore? mark (lines ++ (mark ++ post)) = some lines) :
    lines = [] ∨ ∃ line body, lines = line ++ '\n' :: body ∧ '\n' ∉ line ∧ trimReturns line ≠ mark ∧
      linesBefore? mark (body ++ (mark ++ post)) = some body := by
  rw [linesBefore?_eq] at h
  split at h
  · cases h
    exact .inl rfl
  · rename_i hmark
    rcases dropWhile_line (lines ++ (mark ++ post)) with hd | ⟨rest, hd⟩
    · rw [hd] at h
      cases h
    · rw [hd] at h
      obtain ⟨body, hbody, hlines⟩ := Option.map_eq_some_iff.1 h
      refine .inr ⟨_, body, hlines.symm, not_mem_takeWhile_line _, hmark, ?_⟩
      have hcs := List.takeWhile_append_dropWhile (p := (· != '\n')) (l := lines ++ (mark ++ post))
      generalize (lines ++ (mark ++ post)).takeWhile (· != '\n') = line at *
      rw [hd, ← hlines, List.append_assoc] at hcs
      have hrest : rest = body ++ (mark ++ post) := (List.cons.inj (List.append_cancel_left hcs)).2
      rw [← hrest]
      exact hbody

/-- A line that is not the closing one comes before the others. -/
theorem linesBefore?_line {line rest body : List Char} (hnl : '\n' ∉ line)
    (hne : trimReturns line ≠ mark) (h : linesBefore? mark rest = some body) :
    linesBefore? mark (line ++ '\n' :: rest) = some (line ++ '\n' :: body) := by
  rw [linesBefore?_eq, (takeWhile_line hnl _).1, (takeWhile_line hnl _).2]
  simp [hne, h]

/-! ## The body of a raw block -/

theorem bodyOfLines_append (ys : List Char) : bodyOfLines (ys ++ ['\n']) = trimReturns ys := by
  simp [bodyOfLines]

theorem trimReturns_line (line ys : List Char) :
    trimReturns (line ++ '\n' :: ys) = line ++ '\n' :: trimReturns ys := by
  simp only [trimReturns, List.reverse_append, List.reverse_cons, List.append_assoc,
    List.cons_append, List.nil_append]
  rw [dropWhile_fence (p := (· == '\r')) (z := '\n') (by decide)]
  simp

theorem trimReturns_trimReturns (cs : List Char) : trimReturns (trimReturns cs) = trimReturns cs := by
  simp only [trimReturns, List.reverse_reverse]
  rw [List.dropWhile_idempotent]

theorem bodyOfLines_body (lines : List Char) :
    bodyOfLines (bodyOfLines lines ++ ['\n']) = bodyOfLines lines := by
  rw [bodyOfLines_append]
  unfold bodyOfLines
  split <;> exact trimReturns_trimReturns _

/-- The lines before the closing one end with a line feed, if there are any. -/
theorem exists_eq_append_of_linesBefore? {post : List Char}
    (h : linesBefore? mark (lines ++ (mark ++ post)) = some lines) (hne : lines ≠ []) :
    ∃ ys, lines = ys ++ ['\n'] := by
  induction hn : lines.length using Nat.strongRecOn generalizing lines with
  | _ n ih =>
    rcases linesBefore?_cons h with rfl | ⟨line, body, rfl, -, -, hbody⟩
    · exact absurd rfl hne
    · by_cases hb : body = []
      · exact ⟨line, by rw [hb]⟩
      · obtain ⟨ys, rfl⟩ := ih body.length (by
          rw [← hn, List.length_append, List.length_cons]
          omega) hbody hb rfl
        exact ⟨line ++ '\n' :: ys, by simp⟩

/-- The body of a raw block stands before the closing line as its lines did. -/
theorem linesBefore?_body (hne : mark ≠ []) {post : List Char}
    (h : linesBefore? mark (lines ++ (mark ++ post)) = some lines) :
    linesBefore? mark (bodyOfLines lines ++ '\n' :: (mark ++ post)) =
      some (bodyOfLines lines ++ ['\n']) := by
  induction hn : lines.length using Nat.strongRecOn generalizing lines with
  | _ n ih =>
    rcases linesBefore?_cons h with rfl | ⟨line, body, rfl, hnl, hline, hbody⟩
    · have hempty : trimReturns [] ≠ mark := by simpa [trimReturns] using hne.symm
      exact linesBefore?_line List.not_mem_nil hempty h
    · by_cases hb : body = []
      · -- The last line is trimmed
        subst hb
        rw [bodyOfLines_append]
        refine linesBefore?_line ?_ ?_ hbody
        · obtain ⟨rs, heq, -⟩ := exists_eq_trimReturns line
          intro hmem
          apply hnl
          rw [heq]
          exact List.mem_append_left _ hmem
        · rwa [trimReturns_trimReturns]
      · obtain ⟨ys, rfl⟩ := exists_eq_append_of_linesBefore? hbody hb
        have hlt : (ys ++ ['\n']).length < n := by
          rw [← hn]
          simp only [List.length_append, List.length_cons]
          omega
        have hrec := ih _ hlt hbody rfl
        have hbodies : bodyOfLines (line ++ '\n' :: (ys ++ ['\n'])) =
            line ++ '\n' :: bodyOfLines (ys ++ ['\n']) := by
          rw [← List.cons_append, ← List.append_assoc, bodyOfLines_append, bodyOfLines_append,
            trimReturns_line]
        rw [hbodies, List.append_assoc, List.cons_append, List.append_assoc]
        exact linesBefore?_line hnl hline hrec

/-! ## Raw blocks -/

/-- The parts of a raw block: its tag, the rest of the opening line, and its lines. -/
structure RawParts (tag header lines : List Char) : Prop where
  tagged : ∃ c cs, tag = c :: cs ∧ startsTag c = true ∧ ∀ x ∈ cs, continuesTag x = true
  blank : ∀ x ∈ header, Text.isBlank x = true ∧ x ≠ '\n'
  closes : linesBefore? (closingMark tag) (lines ++ closingMark tag) = some lines

/-- How a raw block of these parts is written. -/
def rawImage (tag header lines : List Char) : List Char :=
  '<' :: '<' :: '<' :: (tag ++ (header ++ '\n' :: (lines ++ closingMark tag)))

theorem length_rawImage (tag header lines : List Char) : (rawImage tag header lines).length =
    4 + tag.length + header.length + lines.length + (closingMark tag).length := by
  simp only [rawImage, List.length_cons, List.length_append]
  omega

theorem closingMark_ne_nil (tag : List Char) : closingMark tag ≠ [] := by
  simp [closingMark]

theorem getLast?_closingMark (tag : List Char) : (closingMark tag).getLast? ≠ some '\r' := by
  simp [closingMark]

theorem continuesTag_of_startsTag {c : Char} (h : startsTag c = true) : continuesTag c = true := by
  simp only [startsTag, Bool.or_eq_true] at h
  rcases h with h | h <;> simp [continuesTag, Char.isAlphanum, h]

theorem not_mem_closingMark {tag : List Char} (h : ∀ x ∈ tag, continuesTag x = true) :
    '\n' ∉ closingMark tag := by
  intro hmem
  rcases List.mem_append.1 hmem with hmem | hmem
  · have := h _ hmem
    revert this
    decide
  · revert hmem
    decide

theorem RawParts.continuesTag {tag header lines : List Char} (h : RawParts tag header lines) :
    ∀ x ∈ tag, continuesTag x = true := by
  obtain ⟨c, cs, rfl, hc, hcs⟩ := h.tagged
  intro x hx
  rcases List.mem_cons.1 hx with rfl | hx
  · exact continuesTag_of_startsTag hc
  · exact hcs x hx

theorem continuesTag_of_isBlank {c : Char} (h : Text.isBlank c = true) :
    continuesTag c = false := by
  have hcont := Text.continuesWord_of_isBlank h
  refine Bool.eq_false_iff.2 fun hc => ?_
  simp only [continuesTag, Char.isAlphanum, Bool.or_eq_true, beq_iff_eq] at hc
  rcases hc with ((hc | hc) | rfl) | rfl
  · rw [Text.continuesWord_of_isAlpha hc] at hcont
    cases hcont
  · rw [Text.continuesWord_of_isDigit hc] at hcont
    cases hcont
  · revert h
    decide
  · revert h
    decide

/-- The tag ends where the rest of its line begins. -/
theorem takeWhile_tag {cs header : List Char} (hcs : ∀ x ∈ cs, continuesTag x = true)
    (hheader : ∀ x ∈ header, Text.isBlank x = true ∧ x ≠ '\n') (rest : List Char) :
    (cs ++ (header ++ '\n' :: rest)).takeWhile continuesTag = cs ∧
      (cs ++ (header ++ '\n' :: rest)).dropWhile continuesTag = header ++ '\n' :: rest := by
  have hhead : ∃ d ds, header ++ '\n' :: rest = d :: ds ∧ continuesTag d = false := by
    cases header with
    | nil => exact ⟨_, _, rfl, by decide⟩
    | cons d ds => exact ⟨_, _, rfl, continuesTag_of_isBlank (hheader d (by simp)).1⟩
  obtain ⟨d, ds, heq, hd⟩ := hhead
  rw [heq, List.takeWhile_append_of_pos hcs, List.dropWhile_append_of_pos hcs]
  simp [hd]

/-- A raw block is recognised by its parts, up to the end of its closing line. -/
theorem heredoc?_rawImage {tag header lines : List Char} (h : RawParts tag header lines)
    {post : List Char} (hpost : EndsLine post) :
    ∃ m, heredoc? (rawImage tag header lines ++ post) = some m ∧
      m.length = (rawImage tag header lines).length ∧ m.closed = true ∧
      m.lexeme = .heredoc (String.ofList tag) (String.ofList (bodyOfLines lines)) := by
  have hend : linesBefore? (closingMark tag) (lines ++ (closingMark tag ++ [])) = some lines := by
    simpa using h.closes
  have hclose : linesBefore? (closingMark tag) (lines ++ (closingMark tag ++ post)) = some lines :=
    linesBefore?_congr (not_mem_closingMark h.continuesTag) (getLast?_closingMark tag) hpost hend
  obtain ⟨c, cs, rfl, hc, hcs⟩ := h.tagged
  obtain ⟨htake, hdrop⟩ := takeWhile_tag hcs h.blank (lines ++ (closingMark (c :: cs) ++ post))
  have hnl : '\n' ∉ header := fun hmem => (h.blank _ hmem).2 rfl
  have hall : header.all Text.isBlank = true := List.all_eq_true.2 fun x hx => (h.blank x hx).1
  have himage : rawImage (c :: cs) header lines ++ post =
      '<' :: '<' :: '<' :: c :: (cs ++ (header ++ '\n' :: (lines ++ (closingMark (c :: cs) ++ post)))) := by
    simp [rawImage]
  let m : Munch :=
    { lexeme := .heredoc (String.ofList (c :: cs)) (String.ofList (bodyOfLines lines))
      length := 4 + (c :: cs).length + header.length + lines.length +
        (closingMark (c :: cs)).length
      length_pos := by omega }
  refine ⟨m, ?_, (length_rawImage _ _ _).symm, rfl, rfl⟩
  rw [himage]
  simp only [heredoc?, heredocTail?, hc, if_true, htake, hdrop, (takeWhile_line hnl _).1,
    (takeWhile_line hnl _).2]
  have hmark : c :: cs ++ ['>', '>', '>'] = closingMark (c :: cs) := rfl
  simp [hall, hmark, hclose, m]

/-- What is recognised as a raw block has its parts. -/
theorem rawParts_of_heredoc? {cs : List Char} {m : Munch} (h : heredoc? cs = some m) :
    ∃ tag header lines post, RawParts tag header lines ∧ EndsLine post ∧
      cs = rawImage tag header lines ++ post ∧ m.length = (rawImage tag header lines).length ∧
      m.closed = true ∧
      m.lexeme = .heredoc (String.ofList tag) (String.ofList (bodyOfLines lines)) := by
  unfold heredoc? at h
  split at h
  · rename_i cs
    cases cs with
    | nil => cases h
    | cons c rest =>
      simp only [heredocTail?] at h
      split at h
      · rename_i hc
        rcases dropWhile_line (rest.dropWhile continuesTag) with hd | ⟨text, hd⟩
        · rw [hd] at h
          cases h
        · rw [hd] at h
          simp only at h
          split at h
          · rename_i hall
            obtain ⟨lines, hlines, hm⟩ := Option.map_eq_some_iff.1 h
            have hlen := congrArg Munch.length hm
            have hclosed := congrArg Munch.closed hm
            have hlex := congrArg Munch.lexeme hm
            clear h hm
            simp only at hlen hclosed hlex
            generalize htag : rest.takeWhile continuesTag = ts at *
            generalize hheader : (rest.dropWhile continuesTag).takeWhile (· != '\n') = header at *
            have hts : ∀ x ∈ ts, continuesTag x = true := by
              rw [← htag]
              exact fun x hx => List.mem_takeWhile_imp hx
            have hnl : '\n' ∉ header := by
              rw [← hheader]
              exact not_mem_takeWhile_line _
            have hrest : rest = ts ++ (header ++ '\n' :: text) := by
              rw [← hd, ← hheader, List.takeWhile_append_dropWhile, ← htag,
                List.takeWhile_append_dropWhile]
            obtain ⟨post, htext, hpost⟩ := linesBefore?_spec hlines
            refine ⟨c :: ts, header, lines, post, ⟨⟨c, ts, rfl, hc, hts⟩, ?_, ?_⟩, hpost, ?_,
              hlen.symm.trans (length_rawImage _ _ _).symm, hclosed.symm, hlex.symm⟩
            · intro x hx
              refine ⟨List.all_eq_true.1 hall x hx, ?_⟩
              rintro rfl
              exact hnl hx
            · rw [htext] at hlines
              have := linesBefore?_congr (not_mem_closingMark ?_)
                (getLast?_closingMark (c :: ts)) (show EndsLine [] by simp [EndsLine]) hlines
              · simpa [closingMark] using this
              · intro x hx
                rcases List.mem_cons.1 hx with rfl | hx
                · exact continuesTag_of_startsTag hc
                · exact hts x hx
            · rw [hrest, htext]
              simp [rawImage, closingMark]
          · cases h
      · cases h
  · cases h

/-- What a raw block was read from can be written with its tag and its body alone. -/
theorem RawParts.body {tag header lines : List Char} (h : RawParts tag header lines) :
    RawParts tag [] (bodyOfLines lines ++ ['\n']) := by
  refine ⟨h.tagged, by simp, ?_⟩
  have hend : linesBefore? (closingMark tag) (lines ++ (closingMark tag ++ [])) = some lines := by
    simpa using h.closes
  simpa using linesBefore?_body (closingMark_ne_nil tag) hend

theorem not_heredoc_of_flat? {s : Bool} {cs : List Char} (h : flat? s cs = some m)
    (tag body : String) : m.lexeme ≠ .heredoc tag body := by
  intro heq
  rcases lexeme_of_flat? h with ⟨v, h⟩ | h | ⟨h, -⟩ | ⟨w, h⟩ | h | h
  · cases heq.symm.trans h
  · cases heq.symm.trans h
  · rwa [heq] at h
  · rw [h, wordLexeme] at heq
    split_ifs at heq
  · cases heq.symm.trans h
  · cases heq.symm.trans h

/-! ## No token is longer than its text -/

theorem length_quotedBody_le (q : Char) (cs : List Char) : (quotedBody q cs).2.1 ≤ cs.length := by
  fun_induction quotedBody q cs with
  | case1 => simp
  | case2 => simp
  | case3 => simp
  | case4 => simp
  | case5 => simp
  | case6 e rest he val k closed heq hb hq ih =>
    rw [heq] at ih
    simpa using ih
  | case7 c cs hn hq hb val k closed heq ih =>
    rw [heq] at ih
    simpa using ih

theorem length_unsigned?_le {neg : Bool} {k : Nat} {cs : List Char}
    (h : unsigned? neg k cs = some m) : m.length ≤ k + cs.length := by
  have hparts := length_of_unsigned? h
  have hsum := congrArg List.length (List.takeWhile_append_dropWhile (p := Char.isDigit) (l := cs))
  rw [List.length_append] at hsum
  generalize cs.dropWhile Char.isDigit = rest at *
  have hunit := (chars_unitOf_isPrefix (rest.drop (pointLength rest))).length_le
  have hchars : ∀ u : NumberUnit, u.chars.length = u.length := by
    intro u
    cases u <;> rfl
  rw [hchars, List.length_drop] at hunit
  have hpoint : pointLength rest ≤ rest.length := by
    unfold pointLength
    cases rest with
    | nil => simp [fractionDigits]
    | cons c r =>
      by_cases hc : c = '.'
      · subst hc
        have := (List.takeWhile_sublist Char.isDigit (l := r)).length_le
        simp only [fractionDigits, List.length_cons]
        split <;> omega
      · simp [fractionDigits, hc]
  omega

theorem length_operator?_le {cs : List Char} (h : operator? cs = some m) :
    m.length ≤ cs.length := by
  match cs with
  | [] => cases h
  | [c] =>
    simp only [operator?] at h
    split at h <;> cases h
    simp
  | c :: d :: cs =>
    simp only [operator?] at h
    split at h
    · cases h
      simp
    · split at h <;> cases h
      simp

theorem length_string?_le {cs : List Char} (h : string? cs = some m) : m.length ≤ cs.length := by
  cases cs with
  | nil => cases h
  | cons c r =>
    simp only [string?] at h
    split at h <;> cases h
    simpa using length_quotedBody_le c r

theorem length_color?_le {cs : List Char} (h : color? cs = some m) : m.length ≤ cs.length := by
  unfold color? at h
  split at h
  · rename_i r
    obtain ⟨n, hn, rfl⟩ := Option.map_eq_some_iff.1 h
    have hle : n ≤ (r.takeWhile isHexDigit).length := by
      simp only [colorDigits?] at hn
      split at hn
      · split at hn
        · split at hn
          · cases hn
          · exact Nat.le_of_eq (Option.some.inj hn).symm
        · exact Nat.le_of_eq (Option.some.inj hn).symm
      · cases hn
    have := (List.takeWhile_sublist isHexDigit (l := r)).length_le
    simp only [List.length_cons]
    omega
  · cases h

theorem length_number?_le {s : Bool} {cs : List Char} (h : number? s cs = some m) :
    m.length ≤ cs.length := by
  cases cs with
  | nil => cases h
  | cons c r =>
    simp only [number?] at h
    rw [List.length_cons]
    split_ifs at h
    · have := length_unsigned?_le h
      omega
    · have := length_unsigned?_le h
      omega
    · simpa using length_unsigned?_le h

theorem length_word?_le {cs : List Char} (h : word? cs = some m) : m.length ≤ cs.length := by
  cases cs with
  | nil => cases h
  | cons c r =>
    simp only [word?] at h
    split at h <;> cases h
    simpa using wordTail_le r

theorem length_punct?_le {cs : List Char} (h : punct? cs = some m) : m.length ≤ cs.length := by
  cases cs with
  | nil => cases h
  | cons c r =>
    simp only [punct?] at h
    split at h <;> cases h
    simp

theorem length_flat?_le {s : Bool} {cs : List Char} (h : flat? s cs = some m) :
    m.length ≤ cs.length := by
  rcases flat?_kinds h with h | h | h | h | h | h
  · exact length_string?_le h
  · exact length_color?_le h
  · exact length_number?_le h
  · exact length_word?_le h
  · exact length_operator?_le h
  · exact length_punct?_le h

theorem length_munch?_le {s : Bool} {cs : List Char} (h : munch? s cs = some m) :
    m.length ≤ cs.length := by
  rcases munch?_cases h with hraw | ⟨-, hflat⟩
  · obtain ⟨tag, header, lines, post, -, -, rfl, hlen, -⟩ := rawParts_of_heredoc? hraw
    rw [hlen, List.length_append]
    omega
  · exact length_flat?_le hflat

end DiagramTour
