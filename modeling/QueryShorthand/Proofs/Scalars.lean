import QueryShorthand.Proofs.JsonGrammar
import QueryShorthand.Text.Spans

/-! The readers of JSON that do not recur, against the grammar: spaces, strings, numbers and the
names of the other values. What a reader takes is a text of the grammar, and each such text is
taken in full, numbers in front of anything that does not go on with them. -/

namespace QueryShorthand
set_option autoImplicit false

theorem Hex.value_eq_some_iff {c : Char} {n : Nat} : value c = some n ↔ Json.HexDigit c n := by
  constructor
  · intro h
    have hcode : ∀ k < 0x67, ∀ m ∈ value (Char.ofNat k),
        m < 16 ∧ (Char.ofNat k = lower m ∨ Char.ofNat k = upper m) := by decide +kernel
    have hlast {d : Char} (hd : c ≤ d) (hlt : d.toNat < 0x67) : c.toNat < 0x67 :=
      Nat.lt_of_le_of_lt (UInt32.le_iff_toNat_le.1 hd) hlt
    have hlt : c.toNat < 0x67 := by
      unfold value at h
      split at h
      next hdigit => exact hlast hdigit.2 (by decide)
      next =>
        split at h
        next hsmall => exact hlast hsmall.2 (by decide)
        next =>
          split at h
          next hcapital => exact hlast hcapital.2 (by decide)
          next => cases h
    rw [← Char.ofNat_toNat c] at h ⊢
    exact hcode c.toNat hlt n h
  · rintro ⟨hn, rfl | rfl⟩
    · exact value_lower hn
    · exact value_upper hn

namespace Json

/-! Spaces -/

theorem isBlank_iff {c : Char} : isBlank c ↔ c ∈ [' ', '\t', '\n', '\r'] := by
  simp [isBlank, or_assoc]

theorem spaces_iff {s : Text} : Spaces s ↔ ∀ c ∈ s, isBlank c := by
  simp only [Spaces, isBlank_iff]

theorem skipBlank_append {a s : Text} (ha : Spaces a) (hs : Stops isBlank s) :
    skipBlank (a ++ s) = s :=
  dropWhile_append_of_stops (spaces_iff.1 ha) hs

theorem skipBlank_of_stops {s : Text} (hs : Stops isBlank s) : skipBlank s = s :=
  skipBlank_append (a := []) (by simp [Spaces]) hs

theorem exists_spaces (s : Text) : ∃ a, Spaces a ∧ s = a ++ skipBlank s :=
  ⟨s.takeWhile isBlank, spaces_iff.2 fun _ => List.mem_takeWhile_imp,
    List.takeWhile_append_dropWhile.symm⟩

/-! Strings -/

theorem unit_eq_some_iff {a b c d : Char} {n : Nat} :
    unit a b c d = some n ↔ UnitText [a, b, c, d] n := by
  simp only [unit, Option.bind_eq_bind, Option.bind_eq_some_iff, Option.pure_def, Option.some.injEq,
    Hex.value_eq_some_iff]
  constructor
  · rintro ⟨i, ha, j, hb, k, hc, l, hd, rfl⟩
    exact .digits ha hb hc hd
  · rintro ⟨ha, hb, hc, hd⟩
    exact ⟨_, ha, _, hb, _, hc, _, hd, rfl⟩

theorem escaped_eq_some_iff {letter c : Char} :
    escaped letter = some c ↔ (letter, c) ∈ escapes := by
  constructor
  · intro h
    unfold escaped at h
    split at h <;> cases h <;> decide
  · intro h
    have hall : ∀ e ∈ escapes, escaped e.1 = some e.2 := by decide
    exact hall _ h

theorem surrogatePair_eq_some_iff {high low : Nat} {c : Char} :
    surrogatePair high low = some c ↔ (0xDC00 ≤ low ∧ low ≤ 0xDFFF) ∧
      c = Char.ofNat (0x10000 + (high - 0xD800) * 0x400 + (low - 0xDC00)) := by
  unfold surrogatePair
  split
  next hlow => rw [Option.some.injEq, eq_comm, and_iff_right hlow]
  next hlow => exact iff_of_false nofun fun h => hlow h.1

/-- What is taken behind the opening quote of a string. -/
def TakesString (done s t rest : Text) : Prop :=
  ∃ inside cs, StringText inside cs ∧ s = inside ++ '"' :: rest ∧ t = done.reverse ++ cs

theorem TakesString.char {done s t rest a : Text} {c : Char} (h : CharText a c)
    (hs : TakesString (c :: done) s t rest) : TakesString done (a ++ s) t rest := by
  obtain ⟨inside, cs, hinside, rfl, rfl⟩ := hs
  exact ⟨a ++ inside, c :: cs, .cons h hinside, by simp, by simp⟩

theorem takesString_of_stringFrom {done s t rest : Text} (h : stringFrom done s = some (t, rest)) :
    TakesString done s t rest := by
  fun_induction stringFrom done s with
  | case1 done s =>
    cases h
    exact ⟨[], [], .nil, rfl, by simp⟩
  | case2 => cases h
  | case3 done a b c d n hn hhigh e f g h' s ch hch ih =>
    obtain ⟨low, hlow, hpair⟩ := Option.bind_eq_some_iff.1 hch
    obtain ⟨hrange, hc⟩ := surrogatePair_eq_some_iff.1 hpair
    exact (ih h).char (.pair (unit_eq_some_iff.1 hn) (unit_eq_some_iff.1 hlow) hhigh hrange hc)
  | case4 => cases h
  | case5 => cases h
  | case6 => cases h
  | case7 done a b c d s n hn hhigh hlow ih =>
    exact (ih h).char (.unit (unit_eq_some_iff.1 hn) (by omega))
  | case8 done c s _ ch hch ih => exact (ih h).char (.escape (escaped_eq_some_iff.1 hch))
  | case9 => cases h
  | case10 => cases h
  | case11 done c s hquote _ _ hplain ih =>
    rw [not_or] at hplain
    exact (ih h).char (.plain (Nat.le_of_not_lt hplain.1) hquote hplain.2)
  | case12 => cases h

theorem stringFrom_char {a : Text} {c : Char} (h : CharText a c) (done s : Text) :
    stringFrom done (a ++ s) = stringFrom (c :: done) s := by
  cases h with
  | plain hcontrol hquote hbackslash =>
    rw [List.singleton_append, stringFrom]
    · exact if_neg (not_or.2 ⟨Nat.not_lt.2 hcontrol, hbackslash⟩)
    · exact hquote
    · exact fun _ _ _ _ _ he => absurd he hbackslash
    · exact fun _ _ he => absurd he hbackslash
  | @escape letter c hmem =>
    have hletter : ∀ e ∈ escapes, e.1 ≠ 'u' := by decide
    change stringFrom done ('\\' :: letter :: s) = _
    rw [stringFrom, escaped_eq_some_iff.2 hmem]
    exact fun _ _ _ _ _ he => absurd he (hletter _ hmem)
  | @unit _ n hunit hn =>
    cases hunit with
    | digits ha hb hc hd =>
      have hread := unit_eq_some_iff.2 (.digits ha hb hc hd)
      simp only [List.cons_append, List.nil_append, stringFrom, hread]
      rw [if_neg (by omega), if_neg (by omega)]
  | pair hs ht hhigh hlow hchar =>
    have hpair := surrogatePair_eq_some_iff.2 ⟨hlow, hchar⟩
    cases hs with
    | digits ha hb hc hd =>
      have hhigh' := unit_eq_some_iff.2 (.digits ha hb hc hd)
      cases ht with
      | digits he hf hg hh =>
        have hlow' := unit_eq_some_iff.2 (.digits he hf hg hh)
        simp only [List.cons_append, List.nil_append, stringFrom, hhigh', if_pos hhigh, hlow',
          Option.bind_some, hpair]

theorem stringFrom_text {inside cs : Text} (h : StringText inside cs) (done rest : Text) :
    stringFrom done (inside ++ '"' :: rest) = some (done.reverse ++ cs, rest) := by
  induction h generalizing done with
  | nil => simp [stringFrom]
  | cons h _ ih => rw [List.append_assoc, stringFrom_char h, ih, List.reverse_cons,
      List.append_assoc, List.singleton_append]

theorem stringFrom_eq_some_iff {s t rest : Text} :
    stringFrom [] s = some (t, rest) ↔ ∃ inside, StringText inside t ∧ s = inside ++ '"' :: rest := by
  constructor
  · intro h
    obtain ⟨inside, cs, hinside, rfl, rfl⟩ := takesString_of_stringFrom h
    exact ⟨inside, hinside, rfl⟩
  · rintro ⟨inside, hinside, rfl⟩
    exact stringFrom_text hinside [] rest

theorem string_eq_some_iff {s t rest : Text} :
    string s = some (t, rest) ↔
      ∃ inside, StringText inside t ∧ s = '"' :: (inside ++ '"' :: rest) := by
  unfold string
  split
  next s => simp [stringFrom_eq_some_iff]
  next hother =>
    refine iff_of_false nofun ?_
    rintro ⟨inside, -, rfl⟩
    exact hother _ rfl

/-! Numbers -/

/-- What can go on with a number. -/
def inNumber (c : Char) : Bool := c.isDigit || c == '.' || c == 'e' || c == 'E'

theorem stops_isDigit {rest : Text} (h : Stops inNumber rest) : Stops Char.isDigit rest := by
  intro c hc
  have hnumber := h c hc
  simp only [inNumber, Bool.or_eq_false_iff] at hnumber
  exact hnumber.1.1.1

theorem stops_point {rest : Text} (h : Stops inNumber rest) : Stops (· == '.') rest := by
  intro c hc
  have hnumber := h c hc
  simp only [inNumber, Bool.or_eq_false_iff] at hnumber
  exact hnumber.1.1.2

namespace Literal

section
variable {s t rest ds : Text} {negative : Bool}

theorem of_digits (h : digits s = some (ds, rest)) : IsDigits ds ∧ s = ds ++ rest := by
  unfold digits at h
  split at h
  · cases h
  next hne =>
    cases h
    exact ⟨⟨hne, fun _ => List.mem_takeWhile_imp⟩, List.takeWhile_append_dropWhile.symm⟩

theorem digits_append (hds : IsDigits ds) (h : Stops Char.isDigit rest) :
    digits (ds ++ rest) = some (ds, rest) := by
  rw [digits, takeWhile_append_of_stops hds.2 h, dropWhile_append_of_stops hds.2 h]
  cases ds with
  | nil => exact absurd rfl hds.1
  | cons d ds => rfl

theorem of_scanWhole (h : scanWhole s = some (ds, rest)) :
    IsDigits ds ∧ (ds.head? = some '0' → ds = ['0']) ∧ s = ds ++ rest := by
  unfold scanWhole at h
  split at h
  · cases h
    exact ⟨⟨List.cons_ne_nil _ _, by simp⟩, fun _ => rfl, rfl⟩
  next hother =>
    obtain ⟨hds, rfl⟩ := of_digits h
    refine ⟨hds, fun hzero => ?_, rfl⟩
    obtain ⟨ds', rfl⟩ := List.head?_eq_some_iff.1 hzero
    exact absurd rfl (hother (ds' ++ rest))

theorem scanWhole_append (hds : IsDigits ds) (hzero : ds.head? = some '0' → ds = ['0'])
    (h : Stops Char.isDigit rest) : scanWhole (ds ++ rest) = some (ds, rest) := by
  unfold scanWhole
  split
  next s' heq =>
    have hhead : (ds ++ rest).head? = some '0' := by rw [heq]; rfl
    rw [List.head?_append_of_ne_nil _ hds.1] at hhead
    obtain rfl := hzero hhead
    cases heq
    rfl
  · exact digits_append hds h

theorem of_scanFraction {fraction : Option Text} (h : scanFraction s = some (fraction, rest)) :
    ∃ a, FractionText a fraction ∧ s = a ++ rest := by
  unfold scanFraction at h
  split at h
  · obtain ⟨⟨ds, rest'⟩, hread, he⟩ := Option.map_eq_some_iff.1 h
    cases he
    obtain ⟨hds, rfl⟩ := of_digits hread
    exact ⟨_, .some hds, rfl⟩
  · cases h
    exact ⟨_, .none, rfl⟩

theorem scanFraction_append {fraction : Option Text} (hs : FractionText s fraction)
    (h : Stops Char.isDigit rest) (hpoint : Stops (· == '.') rest) :
    scanFraction (s ++ rest) = some (fraction, rest) := by
  cases hs with
  | none =>
    rw [List.nil_append]
    unfold scanFraction
    split
    · exact absurd (stops_cons.1 hpoint) (by decide)
    · rfl
  | some hds =>
    rw [List.cons_append, scanFraction, digits_append hds h]
    rfl

theorem signText_scanSign (s : Text) :
    ∃ a, SignText a (scanSign s).1 ∧ s = a ++ (scanSign s).2 := by
  unfold scanSign
  split
  · exact ⟨_, .minus, rfl⟩
  · exact ⟨_, .plus, rfl⟩
  · exact ⟨_, .none, rfl⟩

theorem scanSign_append (hs : SignText s negative) (hds : IsDigits ds) (rest : Text) :
    scanSign (s ++ (ds ++ rest)) = (negative, ds ++ rest) := by
  cases hs with
  | none =>
    obtain ⟨d, ds', rfl⟩ := List.exists_cons_of_ne_nil hds.1
    have hd := hds.2 d List.mem_cons_self
    rw [List.nil_append]
    unfold scanSign
    split
    next heq => cases heq; exact absurd hd (by decide)
    next heq => cases heq; exact absurd hd (by decide)
    · rfl
  | plus => rfl
  | minus => rfl

theorem of_scanExponent {exponent : Option (Bool × Text)}
    (h : scanExponent s = some (exponent, rest)) :
    ∃ a, ExponentText a exponent ∧ s = a ++ rest := by
  unfold scanExponent at h
  split at h
  · cases h
    exact ⟨_, .none, rfl⟩
  next c s =>
    split at h
    next he =>
      obtain ⟨a, ha, hsign⟩ := signText_scanSign s
      generalize scanSign s = read at h ha hsign
      obtain ⟨⟨ds, rest'⟩, hread, heq⟩ := Option.map_eq_some_iff.1 h
      cases heq
      obtain ⟨hds, hrest⟩ := of_digits hread
      exact ⟨_, .some he ha hds, by simp [hsign, hrest]⟩
    next =>
      cases h
      exact ⟨_, .none, rfl⟩

theorem scanExponent_append {exponent : Option (Bool × Text)} (ht : ExponentText t exponent)
    (h : Stops inNumber rest) : scanExponent (t ++ rest) = some (exponent, rest) := by
  cases ht with
  | none =>
    cases rest with
    | nil => rfl
    | cons c rest =>
      have hc : ¬ (c = 'e' ∨ c = 'E') := by
        rintro (rfl | rfl) <;> exact absurd (stops_cons.1 h) (by decide)
      rw [List.nil_append, scanExponent, if_neg hc]
  | some he hsign hds =>
    rw [List.cons_append, List.append_assoc, scanExponent, if_pos he, scanSign_append hsign hds]
    dsimp only
    rw [digits_append hds (stops_isDigit h)]
    rfl

/-- The reading of a number behind its sign. -/
def scanUnsigned (negative : Bool) (s : Text) : Option (Literal × Text) := do
  let (whole, s) ← scanWhole s
  let (fraction, s) ← scanFraction s
  let (exponent, s) ← scanExponent s
  return (⟨negative, whole, fraction, exponent⟩, s)

theorem scan_of_ne (h : s.head? ≠ some '-') : scan s = scanUnsigned false s := by
  unfold scan
  split
  next negative s' heq =>
    split at heq
    · exact absurd rfl h
    · cases heq
      rfl

theorem scan_signed (negative : Bool) (h : s.head? ≠ some '-') :
    scan (signed negative s) = scanUnsigned negative s := by
  cases negative with
  | true => rfl
  | false => exact scan_of_ne h

theorem of_scanUnsigned {l : Literal} (h : scanUnsigned negative s = some (l, rest)) :
    ∃ a, LiteralText (signed negative a) l ∧ s = a ++ rest := by
  simp only [scanUnsigned, Option.bind_eq_bind, Option.bind_eq_some_iff, Option.pure_def,
    Option.some.injEq, Prod.exists, Prod.mk.injEq] at h
  obtain ⟨whole, s₁, hwhole, fraction, s₂, hfraction, exponent, s₃, hexponent, rfl, rfl⟩ := h
  obtain ⟨hdigits, hzero, rfl⟩ := of_scanWhole hwhole
  obtain ⟨a, ha, rfl⟩ := of_scanFraction hfraction
  obtain ⟨b, hb, rfl⟩ := of_scanExponent hexponent
  exact ⟨_, .parts hdigits hzero ha hb, by simp⟩

theorem of_scan {l : Literal} (h : scan s = some (l, rest)) :
    ∃ a, LiteralText a l ∧ s = a ++ rest := by
  by_cases hminus : s.head? = some '-'
  · obtain ⟨s', rfl⟩ := List.head?_eq_some_iff.1 hminus
    have hunsigned : scanUnsigned true s' = some (l, rest) := h
    obtain ⟨a, ha, rfl⟩ := of_scanUnsigned hunsigned
    exact ⟨_, ha, rfl⟩
  · rw [scan_of_ne hminus] at h
    exact of_scanUnsigned h

/-- What follows the whole part is no digit, and what follows the fraction no point either. -/
theorem stops_exponent {p : Char → Bool} {exponent : Option (Bool × Text)}
    (ht : ExponentText t exponent) (he : p 'e' = false ∧ p 'E' = false) (h : Stops p rest) :
    Stops p (t ++ rest) := by
  cases ht with
  | none => exact h
  | some hmark =>
    rw [List.cons_append, stops_cons]
    rcases hmark with rfl | rfl
    · exact he.1
    · exact he.2

theorem stops_fraction {fraction : Option Text} (hs : FractionText s fraction)
    (h : Stops Char.isDigit rest) : Stops Char.isDigit (s ++ rest) := by
  cases hs with
  | none => exact h
  | some => exact stops_cons.2 (by decide)

theorem scan_append {l : Literal} (hl : LiteralText s l) (h : Stops inNumber rest) :
    scan (s ++ rest) = some (l, rest) := by
  cases hl with
  | @parts negative whole s t fraction exponent hwhole hzero hs ht =>
    have hdigit := stops_exponent ht ⟨by decide, by decide⟩ (stops_isDigit h)
    have hpoint := stops_exponent ht ⟨by decide, by decide⟩ (stops_point h)
    obtain ⟨d, ds, rfl⟩ := List.exists_cons_of_ne_nil hwhole.1
    have hd := hwhole.2 d List.mem_cons_self
    have hhead : (d :: ds ++ (s ++ (t ++ rest))).head? ≠ some '-' := by
      rintro ⟨⟩
      exact absurd hd (by decide)
    have hscan := scan_signed negative hhead
    rw [scanUnsigned, scanWhole_append hwhole hzero (stops_fraction hs hdigit)] at hscan
    simp only [Option.bind_eq_bind, Option.bind_some, scanFraction_append hs hdigit hpoint,
      scanExponent_append ht h] at hscan
    have hsame : signed negative (d :: ds ++ (s ++ t)) ++ rest =
        signed negative (d :: ds ++ (s ++ (t ++ rest))) := by
      cases negative <;> simp [signed]
    rw [hsame]
    exact hscan

end

end Literal

/-! Values that are neither arrays nor objects -/

/-- What numbers begin with. -/
abbrev Numeric (c : Char) : Prop := c.isDigit ∨ c = '-'

theorem Numeric.ne {c d : Char} (h : Numeric c) (hd : ¬ Numeric d) : c ≠ d :=
  fun he => hd (he ▸ h)

theorem LiteralText.head {s : Text} {l : Literal} (h : LiteralText s l) :
    ∃ c s', s = c :: s' ∧ Numeric c := by
  cases h with
  | @parts negative whole s t fraction exponent hwhole hzero hs ht =>
    obtain ⟨d, ds, rfl⟩ := List.exists_cons_of_ne_nil hwhole.1
    cases negative with
    | true => exact ⟨'-', _, rfl, .inr rfl⟩
    | false => exact ⟨d, _, rfl, .inl (hwhole.2 d List.mem_cons_self)⟩

theorem scalar_numeric {c : Char} {s : Text} (h : Numeric c) :
    scalar (c :: s) = (do
      let (l, rest) ← Literal.scan (c :: s)
      return (.number (← l.value), rest)) := by
  unfold scalar
  split
  next heq => exact absurd (List.cons.inj heq).1 (h.ne (by decide))
  next heq => exact absurd (List.cons.inj heq).1 (h.ne (by decide))
  next heq => exact absurd (List.cons.inj heq).1 (h.ne (by decide))
  next heq => exact absurd (List.cons.inj heq).1 (h.ne (by decide))
  · rfl

section
variable {s t rest : Text} {v : Value}

theorem scalarText_of_scalar (h : scalar s = some (v, rest)) :
    ∃ t, ScalarText t v ∧ s = t ++ rest := by
  unfold scalar at h
  split at h
  · cases h
    exact ⟨_, .null, rfl⟩
  · cases h
    exact ⟨_, .bool, rfl⟩
  · cases h
    exact ⟨_, .bool, rfl⟩
  · obtain ⟨⟨t, behind⟩, hread, he⟩ := Option.map_eq_some_iff.1 h
    cases he
    obtain ⟨inside, hinside, rfl⟩ := stringFrom_eq_some_iff.1 hread
    exact ⟨_, .string hinside, by simp⟩
  · obtain ⟨⟨l, behind⟩, hscan, h⟩ := Option.bind_eq_some_iff.1 h
    obtain ⟨n, hn, he⟩ := Option.bind_eq_some_iff.1 h
    cases he
    obtain ⟨t, ht, rfl⟩ := Literal.of_scan hscan
    exact ⟨t, .number ht hn, rfl⟩

theorem scalar_append (h : ScalarText t v) (hrest : Stops inNumber rest) :
    scalar (t ++ rest) = some (v, rest) := by
  cases h with
  | null => rfl
  | @bool b => cases b <;> rfl
  | @number _ l n hl hn =>
    obtain ⟨c, t', rfl, hc⟩ := hl.head
    have hscan := Literal.scan_append hl hrest
    rw [List.cons_append] at hscan ⊢
    rw [scalar_numeric hc, hscan]
    simp [hn]
  | @string inside t hinside =>
    simp [scalar, stringFrom_text hinside]

theorem ScalarText.head (h : ScalarText t v) :
    ∃ c t', t = c :: t' ∧ isBlank c = false ∧ c ∉ ['[', ']', '\x7b'] := by
  cases h with
  | number hl hn =>
    obtain ⟨c, t', rfl, hc⟩ := hl.head
    refine ⟨c, t', rfl, ?_, ?_⟩
    · rw [← Bool.not_eq_true, isBlank_iff]
      simp only [List.mem_cons, List.not_mem_nil, or_false, not_or]
      exact ⟨hc.ne (by decide), hc.ne (by decide), hc.ne (by decide), hc.ne (by decide)⟩
    · simp only [List.mem_cons, List.not_mem_nil, or_false, not_or]
      exact ⟨hc.ne (by decide), hc.ne (by decide), hc.ne (by decide)⟩
  | @bool b => cases b <;> exact ⟨_, _, rfl, by decide, by decide⟩
  | _ => exact ⟨_, _, rfl, by decide, by decide⟩

end

end Json

end QueryShorthand
