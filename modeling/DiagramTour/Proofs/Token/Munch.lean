import DiagramTour.Proofs.Token.Fence

/-!
# Taking text away from behind a token, and putting text there

For each kind of token: what is recognised at the head of `im ++ w` and ends with `im` is
recognised at the head of `im` alone, and what is recognised at the head of a text is recognised
at the head of the same text before a fence.
-/

namespace DiagramTour

variable {z : Char} {s : Bool} {m : Munch}

/-! ## Runs of characters -/

section Runs

variable {p : Char → Bool}

theorem takeWhile_fence (hz : p z = false) (r x : List Char) :
    (r ++ z :: x).takeWhile p = r.takeWhile p := by
  induction r with
  | nil => simp [hz]
  | cons c r ih => cases hc : p c <;> simp [hc, ih]

theorem dropWhile_fence (hz : p z = false) (r x : List Char) :
    (r ++ z :: x).dropWhile p = r.dropWhile p ++ z :: x := by
  induction r with
  | nil => simp [hz]
  | cons c r ih => cases hc : p c <;> simp [hc, ih]

/-- A run that does not go beyond `r` is the run of `r`. -/
theorem takeWhile_of_length_le {r w : List Char} (h : ((r ++ w).takeWhile p).length ≤ r.length) :
    (r ++ w).takeWhile p = r.takeWhile p ∧ (r ++ w).dropWhile p = r.dropWhile p ++ w := by
  induction r with
  | nil =>
    have h0 : w.takeWhile p = [] := by simpa using h
    refine ⟨by simpa using h0, ?_⟩
    have := List.takeWhile_append_dropWhile (p := p) (l := w)
    rw [h0] at this
    simpa using this
  | cons c r ih =>
    cases hc : p c with
    | false => simp [hc]
    | true =>
      simp only [List.cons_append, List.takeWhile_cons, hc, if_true, List.length_cons,
        Nat.add_le_add_iff_right] at h
      simpa [hc] using ih h

end Runs

/-! ## Quoted texts -/

theorem quotedBody_cons (q c : Char) (cs : List Char) : quotedBody q (c :: cs) =
    if c = '\n' then ([], 0, false)
    else if c = q then ([], 1, true)
    else if c = '\\' then
      match cs with
      | [] => (['\\'], 1, false)
      | e :: rest =>
        if e = '\n' then (['\\'], 1, false)
        else (quotedBody.resolve e ++ (quotedBody q rest).1, (quotedBody q rest).2.1 + 2,
          (quotedBody q rest).2.2)
    else (c :: (quotedBody q cs).1, (quotedBody q cs).2.1 + 1, (quotedBody q cs).2.2) := by
  cases cs <;> rfl

/-- A quote that is closed within `r` does not depend on what follows `r`. -/
theorem quotedBody_append {q : Char} {r : List Char} {v : List Char} {n : Nat}
    (h : quotedBody q r = (v, n, true)) (w : List Char) : quotedBody q (r ++ w) = (v, n, true) := by
  fun_induction quotedBody q r generalizing v n with
  | case1 => simp at h
  | case2 => simp at h
  | case3 cs hq => simpa [quotedBody_cons, hq] using h
  | case4 => simp at h
  | case5 => simp at h
  | case6 e rest he val k closed heq hb hq ih =>
    simp only [Prod.mk.injEq] at h
    obtain ⟨rfl, rfl, rfl⟩ := h
    simp [quotedBody_cons, hq, he, ih heq]
  | case7 c cs hn hq hb val k closed heq ih =>
    simp only [Prod.mk.injEq] at h
    obtain ⟨rfl, rfl, rfl⟩ := h
    simp [quotedBody_cons, hn, hq, hb, ih heq]

/-- A quote of no length says nothing. -/
theorem eq_of_quotedBody_zero {q : Char} {w v : List Char} {b : Bool}
    (h : quotedBody q w = (v, 0, b)) : v = [] ∧ b = false := by
  cases w with
  | nil =>
    cases h
    exact ⟨rfl, rfl⟩
  | cons c w =>
    rw [quotedBody_cons] at h
    split at h
    · simpa [eq_comm] using h
    -- In every other case at least one character is read
    · split at h
      · simp at h
      · split at h
        · cases w with
          | nil => simp at h
          | cons e w =>
            dsimp only at h
            split at h <;> simp at h
        · simp at h

/-- What a quote says within `r` does not depend on what follows `r`. -/
theorem quotedBody_of_append {q : Char} {r w : List Char} {v : List Char} {n : Nat} {b : Bool}
    (h : quotedBody q (r ++ w) = (v, n, b)) (hn : b = true ∧ n ≤ r.length ∨ n = r.length) :
    quotedBody q r = (v, n, b) := by
  fun_induction quotedBody q r generalizing v n with
  | case1 =>
    have h0 : n = 0 := by
      simp only [List.length_nil, Nat.le_zero] at hn
      omega
    subst h0
    obtain ⟨rfl, rfl⟩ := eq_of_quotedBody_zero h
    rfl
  | case2 cs => simpa [quotedBody_cons] using h
  | case3 cs hq => simpa [quotedBody_cons, hq] using h
  | case4 hb hq =>
    cases w with
    | nil => simpa [quotedBody_cons, hq] using h
    | cons d w =>
      simp only [quotedBody_cons, List.cons_append, List.nil_append, hb, hq, if_false,
        if_true] at h
      split at h
      · exact h
      · simp only [Prod.mk.injEq] at h
        simp at hn
        omega
  | case5 cs hb hq => simpa [quotedBody_cons, hq] using h
  | case6 e rest he val k closed heq hb hq ih =>
    simp only [quotedBody_cons, List.cons_append, hb, hq, he, if_false, if_true,
      Prod.mk.injEq] at h
    obtain ⟨rfl, rfl, rfl⟩ := h
    have hrest : quotedBody q rest = quotedBody q (rest ++ w) := ih rfl (by simpa using hn)
    rw [← hrest, heq]
  | case7 c cs hn' hq hb val k closed heq ih =>
    simp only [quotedBody_cons, List.cons_append, hn', hb, hq, if_false, Prod.mk.injEq] at h
    obtain ⟨rfl, rfl, rfl⟩ := h
    have hrest : quotedBody q cs = quotedBody q (cs ++ w) := ih rfl (by simpa using hn)
    rw [← hrest, heq]

/-! ## Colours -/

theorem isHexDigit_fence (hz : IsFence z) : isHexDigit z = false :=
  Bool.eq_false_iff.2 fun h => hz.ne_of_continuesWord (Text.continuesWord_of_isHexDigit h) rfl

theorem isDigit_fence (hz : IsFence z) : z.isDigit = false :=
  Bool.eq_false_iff.2 fun h => hz.ne_of_continuesWord (Text.continuesWord_of_isDigit h) rfl

theorem colorDigits?_fence (hz : IsFence z) (r x : List Char) :
    colorDigits? (r ++ z :: x) = colorDigits? r := by
  have hgo : colorDigits?.goesOn z = false := by
    simp [colorDigits?.goesOn, hz.1, hz.ne.1]
  unfold colorDigits?
  simp only [takeWhile_fence (isHexDigit_fence hz), dropWhile_fence (isHexDigit_fence hz)]
  cases r.dropWhile isHexDigit with
  | nil => simp [hgo]
  | cons c cs => rfl

theorem color?_fence (hz : IsFence z) {r : List Char} (hr : r ≠ []) (x : List Char) :
    color? (r ++ z :: x) = color? r := by
  cases r with
  | nil => exact absurd rfl hr
  | cons c r =>
    by_cases hc : c = '#'
    · subst hc
      simp only [color?, List.cons_append, colorDigits?_fence hz]
    · simp [color?, hc]

theorem colorDigits?_of_append {r w : List Char} {n : Nat} (h : colorDigits? (r ++ w) = some n)
    (hn : n = r.length) : colorDigits? r = some n := by
  unfold colorDigits? at h ⊢
  by_cases hlen : ((r ++ w).takeWhile isHexDigit).length = 3 ∨
      ((r ++ w).takeWhile isHexDigit).length = 6
  · have htake : ((r ++ w).takeWhile isHexDigit).length = n := by
      simp only [hlen, if_true] at h
      split at h
      · split at h
        · cases h
        · exact Option.some.inj h
      · exact Option.some.inj h
    obtain ⟨h1, h2⟩ := takeWhile_of_length_le (p := isHexDigit) (r := r) (w := w) (by omega)
    -- All of `r` are digits of the colour
    have hall : r.dropWhile isHexDigit = [] := by
      have := congrArg List.length (List.takeWhile_append_dropWhile (p := isHexDigit) (l := r))
      rw [List.length_append, ← h1] at this
      exact List.eq_nil_of_length_eq_zero (by omega)
    rw [htake] at hlen
    simp only [← h1, htake, hlen, if_true, hall, List.head?_nil]
  · simp [hlen] at h

/-! ## Numbers -/

theorem fractionDigits_fence (hz : IsFence z) (r x : List Char) :
    fractionDigits (r ++ z :: x) = fractionDigits r := by
  cases r with
  | nil => simp [fractionDigits, hz.ne.2.1]
  | cons c r =>
    by_cases hc : c = '.'
    · subst hc
      exact takeWhile_fence (isDigit_fence hz) r x
    · simp [fractionDigits, hc]

theorem endsWord_fence (hz : IsFence z) (u x : List Char) :
    endsWord (u ++ z :: x) = endsWord u := by
  cases u with
  | nil => simp [endsWord, hz.1]
  | cons c u => rfl

theorem unitOf_fence (hz : IsFence z) (u x : List Char) : unitOf (u ++ z :: x) = unitOf u := by
  have hm : z ≠ 'm' := hz.ne_of_continuesWord (by decide)
  have hs : z ≠ 's' := hz.ne_of_continuesWord (by decide)
  have hends (v : List Char) : endsWord (v ++ z :: x) = endsWord v := endsWord_fence hz v x
  have hends1 : endsWord (z :: x) = endsWord [] := endsWord_fence hz [] x
  match u with
  | [] => simp [unitOf, hm, hs, hz.ne.2.2.1]
  | [c] =>
    by_cases hcm : c = 'm'
    · subst hcm
      simp [unitOf, hs, hends1]
    · by_cases hcs : c = 's'
      · subst hcs
        simp [unitOf, hends1]
      · by_cases hcp : c = '%'
        · subst hcp
          rfl
        · simp [unitOf, hcm, hcs, hcp]
  | c :: d :: u =>
    by_cases hcm : c = 'm'
    · subst hcm
      by_cases hds : d = 's'
      · subst hds
        simp [unitOf, hends]
      · simp [unitOf, hds, endsWord]
    · by_cases hcs : c = 's'
      · subst hcs
        simp [unitOf, endsWord]
      · by_cases hcp : c = '%'
        · subst hcp
          rfl
        · simp [unitOf, hcm, hcs, hcp]

theorem unsigned?_fence (hz : IsFence z) (neg : Bool) (k : Nat) (r x : List Char) :
    unsigned? neg k (r ++ z :: x) = unsigned? neg k r := by
  have hle : ∀ f : List Char, f = fractionDigits (r.dropWhile Char.isDigit) →
      (if f.isEmpty then 0 else f.length + 1) ≤ (r.dropWhile Char.isDigit).length := by
    rintro f rfl
    cases r.dropWhile Char.isDigit with
    | nil => simp [fractionDigits]
    | cons c r =>
      by_cases hc : c = '.'
      · subst hc
        have := (List.takeWhile_sublist Char.isDigit (l := r)).length_le
        simp only [fractionDigits, List.length_cons]
        split <;> omega
      · simp [fractionDigits, hc]
  unfold unsigned?
  simp only [takeWhile_fence (isDigit_fence hz), dropWhile_fence (isDigit_fence hz),
    fractionDigits_fence hz, List.drop_append_of_le_length (hle _ rfl), unitOf_fence hz]

theorem number?_fence (hz : IsFence z) {r : List Char} (hr : r ≠ []) (x : List Char) :
    number? s (r ++ z :: x) = number? s r := by
  cases r with
  | nil => exact absurd rfl hr
  | cons c r =>
    have h1 := unsigned?_fence hz true 1 r x
    have h2 := unsigned?_fence hz false 1 r x
    have h3 := unsigned?_fence hz false 0 (c :: r) x
    simp only [number?, List.cons_append] at h1 h2 h3 ⊢
    rw [h1, h2, h3]

/-- How many characters a point and the digits after it take. -/
def pointLength (cs : List Char) : Nat :=
  if (fractionDigits cs).isEmpty then 0 else (fractionDigits cs).length + 1

theorem length_of_unsigned? {neg : Bool} {k : Nat} {cs : List Char}
    (h : unsigned? neg k cs = some m) :
    m.length = k + (cs.takeWhile Char.isDigit).length + pointLength (cs.dropWhile Char.isDigit) +
      (unitOf ((cs.dropWhile Char.isDigit).drop
        (pointLength (cs.dropWhile Char.isDigit)))).length := by
  unfold unsigned? at h
  by_cases hw : (cs.takeWhile Char.isDigit).isEmpty = true
  · simp [hw] at h
  · have hpos : 0 < (cs.takeWhile Char.isDigit).length :=
      List.length_pos_iff.2 fun h0 => hw (by simp [h0])
    simp only [hw, hpos, dite_true, Bool.false_eq_true, if_false, Option.some.injEq] at h
    subst h
    rfl

theorem fractionDigits_of_append {r w : List Char} (h : pointLength (r ++ w) ≤ r.length) :
    fractionDigits (r ++ w) = fractionDigits r := by
  unfold pointLength at h
  cases r with
  | nil =>
    have : (fractionDigits w).isEmpty = true := by
      by_contra hne
      simp [hne] at h
    rw [List.nil_append, List.isEmpty_iff.1 this]
    rfl
  | cons c r =>
    by_cases hc : c = '.'
    · subst hc
      simp only [List.cons_append, fractionDigits, List.length_cons] at h ⊢
      refine (takeWhile_of_length_le ?_).1
      split at h
      · rename_i he
        simp [List.isEmpty_iff.1 he]
      · omega
    · simp [fractionDigits, hc]

/-- How a unit is written. -/
def NumberUnit.chars : NumberUnit → List Char
  | milliseconds => ['m', 's']
  | seconds => ['s']
  | minutes => ['m']
  | percent => ['%']
  | none => []

theorem unitOf_chars (u : NumberUnit) : unitOf u.chars = u := by
  cases u <;> rfl

theorem chars_unitOf_isPrefix (cs : List Char) : (unitOf cs).chars <+: cs := by
  unfold unitOf
  split
  · split <;> simp [NumberUnit.chars]
  · split <;> simp [NumberUnit.chars]
  · split <;> simp [NumberUnit.chars]
  · simp [NumberUnit.chars]
  · simp [NumberUnit.chars]

theorem unitOf_of_append {u w : List Char} (h : (unitOf (u ++ w)).length = u.length) :
    unitOf (u ++ w) = unitOf u := by
  have hlen : (unitOf (u ++ w)).chars.length = u.length := by
    rw [← h]
    cases unitOf (u ++ w) <;> rfl
  -- Of two heads of one text that are equally long each is the other
  have hu : (unitOf (u ++ w)).chars = u :=
    (List.prefix_of_prefix_length_le (chars_unitOf_isPrefix _) (List.prefix_append u w)
      (Nat.le_of_eq hlen)).eq_of_length hlen
  calc unitOf (u ++ w) = unitOf (unitOf (u ++ w)).chars := (unitOf_chars _).symm
    _ = unitOf u := by rw [hu]

theorem unsigned?_of_append {neg : Bool} {k : Nat} {im w : List Char}
    (h : unsigned? neg k (im ++ w) = some m) (hlen : m.length = k + im.length) :
    unsigned? neg k im = some m := by
  have hparts := length_of_unsigned? h
  obtain ⟨h1, h2⟩ := takeWhile_of_length_le (p := Char.isDigit) (r := im) (w := w) (by omega)
  have hsum := congrArg List.length (List.takeWhile_append_dropWhile (p := Char.isDigit) (l := im))
  rw [List.length_append] at hsum
  -- What is behind the digits, the point and the unit one after the other
  generalize hrest : im.dropWhile Char.isDigit = rest at *
  rw [h1, h2] at hparts
  have h3 := fractionDigits_of_append (r := rest) (w := w) (by omega)
  have hpoint : pointLength (rest ++ w) = pointLength rest := by
    unfold pointLength
    rw [h3]
  rw [hpoint] at hparts
  have h4 : (rest ++ w).drop (pointLength rest) = rest.drop (pointLength rest) ++ w :=
    List.drop_append_of_le_length (by omega)
  rw [h4] at hparts
  have h5 := unitOf_of_append (u := rest.drop (pointLength rest)) (w := w) (by
    rw [List.length_drop]
    omega)
  unfold pointLength at h4 h5
  unfold unsigned? at h ⊢
  simp only [h1, h2, h3, h4, h5] at h
  simpa only [hrest] using h

theorem number?_of_append {im w : List Char} (h : number? s (im ++ w) = some m)
    (hlen : m.length = im.length) : number? s im = some m := by
  cases im with
  | nil =>
    have := m.length_pos
    simp only [List.length_nil] at hlen
    omega
  | cons c r =>
    simp only [List.cons_append, number?] at h ⊢
    have hlen' : m.length = 1 + r.length := by
      rw [hlen, List.length_cons, Nat.add_comm]
    -- The sign, if any, is a part of `im`
    split_ifs at h ⊢
    · exact unsigned?_of_append h hlen'
    · exact unsigned?_of_append h hlen'
    · exact unsigned?_of_append h (by rw [hlen, Nat.zero_add])

/-! ## Words -/

theorem wordTail_le (cs : List Char) : wordTail cs ≤ cs.length := by
  fun_induction wordTail cs <;> simp_all

theorem wordTail_cons (c : Char) (cs : List Char) : wordTail (c :: cs) =
    if Text.continuesWord c || (c == '-' && !endsWord cs) then wordTail cs + 1 else 0 := by
  cases hc : Text.continuesWord c with
  | true => simp [wordTail, hc]
  | false =>
    by_cases hm : c = '-'
    · subst hm
      cases cs <;> simp [wordTail, hc, endsWord]
    · simp [wordTail, hc, hm]

/-- A word ends before anything but a hyphen and what continues a word. -/
theorem wordTail_append (hz : Text.continuesWord z = false) (hm : z ≠ '-') (r x : List Char) :
    wordTail (r ++ z :: x) = wordTail r := by
  have hends (r : List Char) : endsWord (r ++ z :: x) = endsWord r := by
    cases r with
    | nil => simp [endsWord, hz]
    | cons c r => rfl
  induction r with
  | nil => simp [wordTail, hz, hm]
  | cons c r ih => simp only [List.cons_append, wordTail_cons, hends, ih]

theorem word?_append (hz : Text.continuesWord z = false) (hm : z ≠ '-') {r : List Char}
    (hr : r ≠ []) (x : List Char) : word? (r ++ z :: x) = word? r := by
  cases r with
  | nil => exact absurd rfl hr
  | cons c r =>
    have h1 := wordTail_append hz hm r x
    have h2 : (r ++ z :: x).take (wordTail r) = r.take (wordTail r) :=
      List.take_append_of_le_length (wordTail_le r)
    simp only [word?, List.cons_append, h1, h2]

/-- A word by itself is one word. -/
theorem wordTail_take (cs : List Char) : wordTail (cs.take (wordTail cs)) = wordTail cs := by
  induction cs with
  | nil => rfl
  | cons c cs ih =>
    rw [wordTail_cons]
    split
    · rename_i hc
      have hends : Text.continuesWord c = false → endsWord (cs.take (wordTail cs)) = endsWord cs := by
        -- A hyphen is taken only before a character that is taken as well
        intro hno
        cases cs with
        | nil => rfl
        | cons d cs =>
          have hd : c = '-' ∧ Text.continuesWord d = true := by simpa [hno, endsWord] using hc
          simp [wordTail_cons, hd.2, endsWord]
      rw [List.take_succ_cons, wordTail_cons, ih]
      cases hno : Text.continuesWord c with
      | true => simp
      | false =>
        rw [hno] at hc
        rw [hends hno, if_pos hc]
    · rfl

theorem word?_of_append {im w : List Char} (h : word? (im ++ w) = some m)
    (hlen : m.length = im.length) : word? im = some m := by
  cases im with
  | nil =>
    have := m.length_pos
    simp only [List.length_nil] at hlen
    omega
  | cons c r =>
    simp only [List.cons_append, word?] at h ⊢
    split at h
    · rename_i hc
      cases h
      have hn : wordTail (r ++ w) = r.length := by simpa using hlen
      have htake : (r ++ w).take r.length = r := List.take_left' rfl
      have hr : wordTail r = r.length := by
        have := wordTail_take (r ++ w)
        rwa [hn, htake] at this
      simp only [hc, if_true, hr, hn, htake, List.take_length]
    · cases h

/-! ## Operators and punctuation marks -/

theorem operator?_fence (hz : IsFence z) {r : List Char} (hr : r ≠ []) (x : List Char) :
    operator? (r ++ z :: x) = operator? r := by
  match r with
  | [] => exact absurd rfl hr
  | [c] =>
    have hlong : isLongOperator c z = false := by
      obtain ⟨-, -, -, heq, hand, hor, hgt, -⟩ := hz.ne
      simp [isLongOperator, heq, hand, hor, hgt]
    simp [operator?, hlong]
  | c :: d :: r => rfl

theorem punct?_append {r : List Char} (hr : r ≠ []) (x : List Char) :
    punct? (r ++ x) = punct? r := by
  cases r with
  | nil => exact absurd rfl hr
  | cons c r => rfl

end DiagramTour
