import DiagramTour.Proofs.Program.WellFormed

/-!
# Numerals

A numeral is a run of digits, with a sign before it or not, and perhaps a point and more digits
behind it.  Digits with a point behind them are read as a whole number unless another digit follows.
-/

namespace DiagramTour

variable {cs ds fs sign rest im : List Char} {s neg : Bool} {k : Nat} {m : Munch} {w : String}

/-! ## Runs of digits -/

/-- A run of digits. -/
structure Digits (ds : List Char) : Prop where
  ne_nil : ds ≠ []
  all : ∀ d ∈ ds, d.isDigit = true

theorem ne_sign_of_isDigit {d : Char} (h : d.isDigit = true) : d ≠ '-' ∧ d ≠ '+' :=
  ⟨ne_of_apply_ne Char.isDigit (by rw [h]; decide), ne_of_apply_ne Char.isDigit (by rw [h]; decide)⟩

/-- No digit comes first. -/
def NoDigit (cs : List Char) : Prop :=
  ∀ d ds, cs = d :: ds → d.isDigit = false

theorem noDigit_nil : NoDigit [] := by
  rintro _ _ ⟨⟩

theorem noDigit_point (rest : List Char) : NoDigit ('.' :: rest) := by
  rintro _ _ ⟨⟩
  decide

theorem takeWhile_of_noDigit (h : NoDigit cs) : cs.takeWhile Char.isDigit = [] := by
  cases cs with
  | nil => rfl
  | cons d ds => simp [h d ds rfl]

namespace Digits

theorem takeWhile (h : Digits ds) (hrest : NoDigit rest) :
    (ds ++ rest).takeWhile Char.isDigit = ds := by
  rw [List.takeWhile_append_of_pos h.all, takeWhile_of_noDigit hrest, List.append_nil]

theorem dropWhile (h : Digits ds) (hrest : NoDigit rest) :
    (ds ++ rest).dropWhile Char.isDigit = rest := by
  have hsplit := List.takeWhile_append_dropWhile (p := Char.isDigit) (l := ds ++ rest)
  rw [h.takeWhile hrest] at hsplit
  exact List.append_cancel_left hsplit

theorem of_takeWhile (h : cs.takeWhile Char.isDigit ≠ []) : Digits (cs.takeWhile Char.isDigit) :=
  ⟨h, fun _ hd => List.mem_takeWhile_imp hd⟩

end Digits

/-! ## Numbers without a sign -/

/-- Digits that no fraction and no unit follows are a whole number. -/
theorem unsigned?_whole (neg : Bool) (k : Nat) (hds : Digits ds) (hrest : NoDigit rest)
    (hfraction : fractionDigits rest = []) (hunit : unitOf rest = .none) :
    ∃ m, unsigned? neg k (ds ++ rest) = some m ∧ m.length = k + ds.length ∧ m.closed = true ∧
      ∃ v, m.lexeme = .int v := by
  have hpos : 0 < ds.length := List.length_pos_iff.2 hds.ne_nil
  unfold unsigned?
  simp only [hds.takeWhile hrest, hds.dropWhile hrest, hfraction, List.isEmpty_iff, hds.ne_nil,
    if_false, if_true, hpos, dite_true, List.drop_zero, hunit]
  exact ⟨_, rfl, rfl, rfl, _, rfl⟩

/-- A point and digits behind digits make a fraction of them. -/
theorem unsigned?_decimal (neg : Bool) (k : Nat) (hds : Digits ds) (hfs : Digits fs)
    (hrest : NoDigit rest) (hunit : unitOf rest = .none) :
    ∃ m, unsigned? neg k (ds ++ '.' :: (fs ++ rest)) = some m ∧
      m.length = k + (ds ++ '.' :: fs).length ∧ m.closed = true ∧ ∃ v, m.lexeme = .number v := by
  have hfraction : fractionDigits ('.' :: (fs ++ rest)) = fs := hfs.takeWhile hrest
  have hpos : 0 < ds.length := List.length_pos_iff.2 hds.ne_nil
  have hunit : unitOf (('.' :: (fs ++ rest)).drop (fs.length + 1)) = .none := by
    rw [List.drop_succ_cons, List.drop_left' rfl, hunit]
  unfold unsigned?
  simp only [hds.takeWhile (noDigit_point _), hds.dropWhile (noDigit_point _), hfraction,
    List.isEmpty_iff, hds.ne_nil, hfs.ne_nil, if_false, hpos, dite_true, hunit]
  refine ⟨_, rfl, ?_, rfl, _, rfl⟩
  simp only [NumberUnit.length, List.length_append, List.length_cons]
  omega

/-- Whether there is a fraction tells the two kinds of numbers without a unit apart. -/
theorem kind_of_unsigned? (h : unsigned? neg k cs = some m)
    (hlex : (∃ v, m.lexeme = .int v) ∨ ∃ v, m.lexeme = .number v) :
    cs.takeWhile Char.isDigit ≠ [] ∧
      unitOf ((cs.dropWhile Char.isDigit).drop (pointLength (cs.dropWhile Char.isDigit))) = .none ∧
      ((∃ v, m.lexeme = .int v) ↔ fractionDigits (cs.dropWhile Char.isDigit) = []) := by
  unfold unsigned? at h
  by_cases hw : (cs.takeWhile Char.isDigit).isEmpty = true
  · simp [hw] at h
  · have hne : cs.takeWhile Char.isDigit ≠ [] := fun h0 => hw (by simp [h0])
    have hpos := List.length_pos_iff.2 hne
    simp only [hw, hpos, dite_true, Bool.false_eq_true, if_false, Option.some.injEq] at h
    subst h
    simp only at hlex ⊢
    split at hlex
    · simp at hlex
    · simp at hlex
    · simp at hlex
    · simp at hlex
    · rename_i hunit
      refine ⟨hne, hunit, ?_⟩
      simp only [List.isEmpty_iff]
      split
      · rename_i hfraction
        exact ⟨fun _ => hfraction, fun _ => ⟨_, rfl⟩⟩
      · rename_i hfraction
        refine ⟨?_, fun h => absurd h hfraction⟩
        rintro ⟨_, hv⟩
        cases hv

/-- A whole number consists of digits. -/
theorem digits_of_unsigned?_int {v : Float} (h : unsigned? neg k cs = some m)
    (hlex : m.lexeme = .int v) (hlen : m.length = k + cs.length) : Digits cs := by
  obtain ⟨hne, hunit, hkind⟩ := kind_of_unsigned? h (.inl ⟨v, hlex⟩)
  have hfraction := hkind.1 ⟨v, hlex⟩
  have hparts := length_of_unsigned? h
  have hpoint : pointLength (cs.dropWhile Char.isDigit) = 0 := by simp [pointLength, hfraction]
  have hall : cs.takeWhile Char.isDigit = cs := by
    refine (List.takeWhile_prefix _).eq_of_length ?_
    rw [hunit, hpoint, NumberUnit.length] at hparts
    omega
  exact hall ▸ .of_takeWhile hne

/-- A number with a fraction consists of two runs of digits with a point between them. -/
theorem digits_of_unsigned?_number {v : Float} (h : unsigned? neg k cs = some m)
    (hlex : m.lexeme = .number v) (hlen : m.length = k + cs.length) :
    ∃ ds fs, cs = ds ++ '.' :: fs ∧ Digits ds ∧ Digits fs := by
  obtain ⟨hne, hunit, hkind⟩ := kind_of_unsigned? h (.inr ⟨v, hlex⟩)
  have hfraction : fractionDigits (cs.dropWhile Char.isDigit) ≠ [] := fun h => by
    obtain ⟨v', hv'⟩ := hkind.2 h
    rw [hlex] at hv'
    cases hv'
  have hparts := length_of_unsigned? h
  have hsplit := List.takeWhile_append_dropWhile (p := Char.isDigit) (l := cs)
  have hsum := congrArg List.length hsplit
  rw [List.length_append] at hsum
  rw [hunit] at hparts
  generalize hds : cs.takeWhile Char.isDigit = ds at *
  generalize cs.dropWhile Char.isDigit = ys at *
  have hdigits : Digits ds := hds ▸ .of_takeWhile (hds.symm ▸ hne)
  cases ys with
  | nil => exact absurd rfl hfraction
  | cons z ys =>
    by_cases hz : z = '.'
    · subst hz
      have hfs : fractionDigits ('.' :: ys) = ys.takeWhile Char.isDigit := rfl
      rw [hfs] at hfraction
      have hall : ys.takeWhile Char.isDigit = ys := by
        refine (List.takeWhile_prefix _).eq_of_length ?_
        simp only [pointLength, hfs, List.isEmpty_iff, hfraction, if_false, NumberUnit.length,
          List.length_cons] at hparts hsum
        omega
      exact ⟨ds, ys, hsplit.symm, hdigits, hall ▸ .of_takeWhile hfraction⟩
    · exact absurd (by simp [fractionDigits, hz]) hfraction

/-! ## Signs -/

/-- A sign or none, and whether it makes a number negative. -/
inductive Sign : List Char → Bool → Prop where
  | none : Sign [] false
  | minus : Sign ['-'] true
  | plus : Sign ['+'] false

/-- A number is one without a sign behind its sign. -/
theorem sign_of_number? (h : number? true cs = some m) : ∃ sign neg ds, cs = sign ++ ds ∧
    Sign sign neg ∧ unsigned? neg sign.length ds = some m := by
  cases cs with
  | nil => cases h
  | cons d cs =>
    simp only [number?, if_true] at h
    split at h
    · rename_i hd
      exact ⟨['-'], true, cs, by rw [hd]; rfl, .minus, h⟩
    · split at h
      · rename_i hd
        exact ⟨['+'], false, cs, by rw [hd]; rfl, .plus, h⟩
      · exact ⟨[], false, d :: cs, rfl, .none, h⟩

theorem number?_signed (hsign : Sign sign neg) (hds : Digits ds) (rest : List Char) :
    number? true (sign ++ (ds ++ rest)) = unsigned? neg sign.length (ds ++ rest) := by
  cases hsign with
  | minus => rfl
  | plus => rfl
  | none =>
    obtain ⟨d, ds, rfl⟩ := List.exists_cons_of_ne_nil hds.ne_nil
    have hd : d.isDigit = true := hds.all d List.mem_cons_self
    obtain ⟨hm, hp⟩ := ne_sign_of_isDigit hd
    simp [number?, hm, hp]

/-! ## Numbers as tokens -/

/-- A number is known by a digit or a sign. -/
theorem flat?_of_number? {d : Char} (h : number? s (d :: cs) = some m) :
    flat? s (d :: cs) = some m := by
  have hd : d.isDigit = true ∨ d = '-' ∨ d = '+' := by
    by_contra hno
    simp only [not_or, Bool.not_eq_true] at hno
    rw [number?_of_ne hno.1 hno.2.1 hno.2.2] at h
    cases h
  have hne (e : Char) (hdigit : e.isDigit = false) (hm : e ≠ '-') (hp : e ≠ '+') : d ≠ e := by
    rintro rfl
    rcases hd with hd | rfl | rfl
    · rw [hd] at hdigit
      cases hdigit
    · exact hm rfl
    · exact hp rfl
  rw [flat?, string?_of_ne (hne _ (by decide) (by decide) (by decide))
    (hne _ (by decide) (by decide) (by decide)),
    color?_of_ne (hne _ (by decide) (by decide) (by decide)), h]
  rfl

theorem munches_of_number? (h : number? true (im ++ rest) = some m)
    (hlen : m.length = im.length) (hclosed : m.closed = true) : Munches im rest m.lexeme := by
  cases im with
  | nil => exact absurd rfl (ne_nil_of_length_eq m hlen)
  | cons d ds =>
    have hflat := flat?_of_number? h
    have hne (e : Char) (hdigit : e.isDigit = false) (hm : e ≠ '-') (hp : e ≠ '+') : d ≠ e := by
      rintro rfl
      rw [List.cons_append, number?_of_ne hdigit hm hp] at h
      cases h
    refine ⟨⟨m, ?_, hlen, hclosed, rfl⟩, triviaLength_eq_zero (isBlank_of_flat? hflat)
      (opensComment_of_ne (hne _ (by decide) (by decide) (by decide))
        (hne _ (by decide) (by decide) (by decide)))⟩
    rw [List.cons_append, munch?_of_ne (hne _ (by decide) (by decide) (by decide))]
    exact hflat

/-! ## Whole numbers -/

/-- A whole number consists of digits behind its sign. -/
theorem whole_iff : Whole w ↔ ∃ sign neg ds, w.toList = sign ++ ds ∧ Sign sign neg ∧ Digits ds := by
  constructor
  · rintro ⟨v, himage⟩
    obtain ⟨m, hm, hlen, hlex⟩ := himage.numeral trivial
    obtain ⟨sign, neg, ds, hw, hsign, hds⟩ := sign_of_number? hm
    exact ⟨sign, neg, ds, hw, hsign, digits_of_unsigned?_int hds hlex (by simp [hlen, hw])⟩
  · rintro ⟨sign, neg, ds, hw, hsign, hds⟩
    obtain ⟨m, hm, hlen, hclosed, v, hlex⟩ :=
      unsigned?_whole neg sign.length hds noDigit_nil rfl rfl
    rw [← number?_signed hsign hds, List.append_nil, ← hw] at hm
    refine ⟨v, m, ?_, by rw [hlen, hw, List.length_append], hclosed, hlex⟩
    cases hcs : w.toList with
    | nil =>
      rw [hcs] at hm
      cases hm
    | cons d cs =>
      rw [hcs] at hm
      exact flat?_of_number? hm

theorem Digits.whole (h : Digits ds) : Whole (String.ofList ds) :=
  whole_iff.2 ⟨[], false, ds, by simp, .none, h⟩

/-- A whole number is read as such before a point that no digit follows. -/
theorem Whole.munches_point (h : Whole w) (hrest : NoDigit rest) :
    ∃ v, Munches w.toList ('.' :: rest) (.int v) := by
  obtain ⟨sign, neg, ds, hw, hsign, hds⟩ := whole_iff.1 h
  obtain ⟨m, hm, hlen, hclosed, v, hlex⟩ := unsigned?_whole neg sign.length hds
    (noDigit_point rest) (takeWhile_of_noDigit hrest) rfl
  rw [← number?_signed hsign hds, ← List.append_assoc, ← hw] at hm
  exact ⟨v, hlex ▸ munches_of_number? hm (by rw [hlen, hw, List.length_append]) hclosed⟩

/-- Before a point and digits it is read as one number together with them. -/
theorem Whole.munches_decimal (h : Whole w) (hfs : Digits fs) (hrest : NoDigit rest)
    (hunit : unitOf rest = .none) : ∃ v, Munches (w.toList ++ '.' :: fs) rest (.number v) := by
  obtain ⟨sign, neg, ds, hw, hsign, hds⟩ := whole_iff.1 h
  obtain ⟨m, hm, hlen, hclosed, v, hlex⟩ := unsigned?_decimal neg sign.length hds hfs hrest hunit
  rw [← number?_signed hsign hds] at hm
  have htext : sign ++ (ds ++ '.' :: (fs ++ rest)) = w.toList ++ '.' :: fs ++ rest := by simp [hw]
  rw [htext] at hm
  refine ⟨v, hlex ▸ munches_of_number? hm ?_ hclosed⟩
  rw [hlen, hw]
  simp only [List.length_append, List.length_cons]
  omega

/-- A number with a fraction is a whole number with a point and digits behind it. -/
theorem whole_of_image_number {v : Float} (h : Image im (.number v)) :
    ∃ g fs, im = String.toList g ++ '.' :: fs ∧ Whole g ∧ Digits fs := by
  obtain ⟨m, hm, hlen, hlex⟩ := h.numeral trivial
  obtain ⟨sign, neg, cs, rfl, hsign, hcs⟩ := sign_of_number? hm
  obtain ⟨ds, fs, rfl, hds, hfs⟩ := digits_of_unsigned?_number hcs hlex (by simp [hlen])
  exact ⟨String.ofList (sign ++ ds), fs, by simp, whole_iff.2 ⟨sign, neg, ds, by simp, hsign, hds⟩, hfs⟩

/-! ## Numbers that are printed -/

theorem digits_toDigits (n : Nat) : Digits (Nat.toDigits 10 n) :=
  ⟨Nat.toDigits_ne_nil, fun _ hd => Nat.isDigit_of_mem_toDigits (by decide) (Nat.le_refl _) hd⟩

theorem natOfDigits_toDigits (n : Nat) : Number.natOfDigits (Nat.toDigits 10 n) = n :=
  Nat.ofDigitChars_ten_toDigits

/-- How a whole number is written. -/
theorem toList_toString_int (i : Int) : (toString i).toList =
    if 0 ≤ i then Nat.toDigits 10 i.toNat else '-' :: Nat.toDigits 10 (-i).toNat := by
  rw [Int.toString_eq_repr, Int.repr_eq_if]
  split <;> simp [Nat.repr_eq_ofList_toDigits]

theorem whole_toString (i : Int) : Whole (toString i) := by
  rw [whole_iff, toList_toString_int]
  split
  · exact ⟨[], false, _, rfl, .none, digits_toDigits _⟩
  · exact ⟨['-'], true, _, rfl, .minus, digits_toDigits _⟩

theorem int?_toString (i : Int) : Number.int? (toString i) = some i := by
  have hall (n : Nat) : (Nat.toDigits 10 n).all Char.isDigit = true :=
    List.all_eq_true.2 (digits_toDigits n).all
  have hempty (n : Nat) : (Nat.toDigits 10 n).isEmpty = false := by simp
  unfold Number.int?
  by_cases hi : 0 ≤ i
  · have hlist : (toString i).toList = Nat.toDigits 10 i.toNat := by
      rw [toList_toString_int, if_pos hi]
    cases hds : Nat.toDigits 10 i.toNat with
    | nil => exact absurd hds Nat.toDigits_ne_nil
    | cons d ds =>
      have hd : d.isDigit = true := (digits_toDigits i.toNat).all d (by simp [hds])
      obtain ⟨hm, hp⟩ := ne_sign_of_isDigit hd
      have hnat : Number.nat? (toString i) = some i.toNat := by
        unfold Number.nat?
        rw [hlist, hds]
        split
        · rename_i heq
          exact absurd (List.cons.inj heq).1 hp
        · rw [← hds]
          simp [hall, natOfDigits_toDigits]
      rw [hlist, hds]
      split
      · rename_i heq
        exact absurd (List.cons.inj heq).1 hm
      · rw [hnat]
        simp [hi]
  · have hlist : (toString i).toList = '-' :: Nat.toDigits 10 (-i).toNat := by
      rw [toList_toString_int, if_neg hi]
    rw [hlist]
    simp only [hall, hempty, natOfDigits_toDigits, Bool.not_true, Bool.or_false, Bool.false_eq_true,
      if_false, Option.some.injEq]
    omega

theorem fits64_toInt (n : Int64) : Number.fits64 n.toInt = true := by
  have hle := n.le_toInt
  have hlt := n.toInt_lt
  have hbound : (Number.twoTo 63 : Int) = 2 ^ 63 := by decide
  rw [Number.fits64, hbound, decide_eq_true hle, decide_eq_true hlt]
  rfl

theorem int64?_toString (n : Int64) : Number.int64? (toString n.toInt) = some n := by
  rw [Number.int64?, int?_toString, Option.filter_some, if_pos (fits64_toInt n), Option.map_some,
    Int64.ofInt_toInt]

end DiagramTour
